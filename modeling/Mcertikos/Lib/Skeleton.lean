/-
Locking skeletons.

A skeleton is the control flow of a piece of sequential code with everything left out but
its uses of locks: which lock it takes, which one it gives up, and where it sleeps.
Conditions are left open, so that the runs of the skeleton include those of the code.

* `Skel.Runs` — the runs, complete or cut off anywhere, as lists of events;
* `Alone` — every sleep on a lock happens with no other lock held;
* `Skel.check` — symbolic execution with the set of held locks;
* `Skel.Runs.sound` — what the check accepts only has such runs.

Design notes: `mark` stands for a point that statements single out.  The check takes the
code behind a mark for unreachable, so that it speaks about the runs without marks.
-/
import Mathlib.Data.Finset.Insert
import Mathlib.Data.Finset.Erase
import Mathlib.Tactic

/-- Code over the locks `L`. -/
inductive Skel (L : Type*) where
  | skip
  | acquire (l : L)
  | release (l : L)
  /-- Gives up `l`, sleeps, and takes `l` again. -/
  | sleep (l : L)
  | mark
  /-- Never goes on. -/
  | halt
  | seq (p q : Skel L)
  /-- One of the two. -/
  | alt (p q : Skel L)
  /-- Any number of rounds. -/
  | loop (p : Skel L)

/-- What a run shows. -/
inductive LockEvent (L : Type*) where
  | acquire (l : L)
  | release (l : L)
  | sleep (l : L)
  | mark
  deriving DecidableEq

namespace Skel

variable {L : Type*}

/-- Statements in a row. -/
def block : List (Skel L) → Skel L
  | [] => skip
  | p :: ps => seq p (block ps)

/-- One of several branches. -/
def branch : List (Skel L) → Skel L
  | [] => halt
  | p :: ps => alt p (branch ps)

/-- A branch that may be left out. -/
def maybe (p : Skel L) : Skel L := alt p skip

/-- The runs; the flag says whether the code has come to its end. -/
inductive Runs : Skel L → List (LockEvent L) → Bool → Prop where
  | cut {p : Skel L} : Runs p [] false
  | skip : Runs skip [] true
  | acquire {l : L} : Runs (acquire l) [.acquire l] true
  | release {l : L} : Runs (release l) [.release l] true
  | sleep {l : L} : Runs (sleep l) [.sleep l] true
  | mark : Runs mark [.mark] true
  | seqCut {p q : Skel L} {es : List (LockEvent L)} (h : Runs p es false) : Runs (seq p q) es false
  | seq {p q : Skel L} {es es' : List (LockEvent L)} {b : Bool} (h : Runs p es true)
      (h' : Runs q es' b) : Runs (seq p q) (es ++ es') b
  | left {p q : Skel L} {es : List (LockEvent L)} {b : Bool} (h : Runs p es b) :
      Runs (alt p q) es b
  | right {p q : Skel L} {es : List (LockEvent L)} {b : Bool} (h : Runs q es b) :
      Runs (alt p q) es b
  | loopDone {p : Skel L} : Runs (loop p) [] true
  | loopCut {p : Skel L} {es : List (LockEvent L)} (h : Runs p es false) : Runs (loop p) es false
  | loopMore {p : Skel L} {es es' : List (LockEvent L)} {b : Bool} (h : Runs p es true)
      (h' : Runs (loop p) es' b) : Runs (loop p) (es ++ es') b

end Skel

section Held

variable {L : Type*} [DecidableEq L]

/-- The locks held after an event. -/
def LockEvent.after (H : Finset L) : LockEvent L → Finset L
  | acquire l => insert l H
  | release l => H.erase l
  | sleep _ => H
  | mark => H

/-- The locks held after a run. -/
def heldAfter (H : Finset L) (es : List (LockEvent L)) : Finset L := es.foldl LockEvent.after H

/-- In a run that starts with the locks `H`, every sleep on a lock happens with no other lock
held. -/
def Alone (H : Finset L) (es : List (LockEvent L)) : Prop :=
  ∀ pre l post, es = pre ++ .sleep l :: post → heldAfter H pre = {l}

theorem alone_nil {H : Finset L} : Alone H [] := by
  intro pre l post h
  simp at h

theorem alone_singleton {H : Finset L} {e : LockEvent L} (h : ∀ l, e = .sleep l → H = {l}) :
    Alone H [e] := by
  intro pre l post he
  cases pre with
  | nil => exact h l (List.cons.inj he).1
  | cons e' pre => simp at he

theorem Alone.append {H : Finset L} {es es' : List (LockEvent L)} (h : Alone H es)
    (h' : Alone (heldAfter H es) es') : Alone H (es ++ es') := by
  intro pre l post he
  -- the sleep is in the first part or in the second
  rcases List.append_eq_append_iff.mp he with ⟨as, hpre, has⟩ | ⟨as, hes, has⟩
  · rw [hpre]
    have := h' as l post has
    rwa [heldAfter, heldAfter, ← List.foldl_append] at this
  · cases as with
    | nil =>
      rw [List.append_nil] at hes
      have := h' [] l post has.symm
      rwa [hes] at this
    | cons e as =>
      obtain ⟨rfl, rfl⟩ := List.cons.inj has
      exact h pre l as hes

end Held

namespace Skel

variable {L : Type*} [DecidableEq L]

/-- What the check finds: a forbidden sleep or a misuse of a lock, code that never goes on,
or the locks held at the end. -/
inductive Verdict (L : Type*) where
  | bad
  | stops
  | goes (H : Finset L)
  deriving DecidableEq

/-- Two branches come together. -/
def Verdict.join : Verdict L → Verdict L → Verdict L
  | bad, _ => bad
  | _, bad => bad
  | stops, v => v
  | v, stops => v
  | goes H, goes H' => if H = H' then goes H else bad

def check : Skel L → Finset L → Verdict L
  | skip, H => .goes H
  | acquire l, H => if l ∈ H then .bad else .goes (insert l H)
  | release l, H => if l ∈ H then .goes (H.erase l) else .bad
  | sleep l, H => if H = {l} then .goes H else .bad
  | mark, _ => .stops
  | halt, _ => .stops
  | seq p q, H =>
    match check p H with
    -- the set from before, if it is the same, has been computed already
    | .goes H' => if H' = H then check q H else check q H'
    | v => v
  | alt p q, H => (check p H).join (check q H)
  | loop p, H =>
    match check p H with
    | .bad => .bad
    | .stops => .goes H
    | .goes H' => if H' = H then .goes H else .bad

theorem check_seq {p q : Skel L} {H H' : Finset L} (h : p.check H = .goes H') :
    (seq p q).check H = q.check H' := by
  rw [check, h]
  dsimp only
  split
  · rename_i he
    rw [he]
  · rfl

theorem Verdict.join_left {v w : Verdict L} (h : v.join w ≠ .bad) :
    v ≠ .bad ∧ ∀ H, v = .goes H → v.join w = .goes H := by
  cases v <;> cases w <;> simp_all [join]

theorem Verdict.join_right {v w : Verdict L} (h : v.join w ≠ .bad) :
    w ≠ .bad ∧ ∀ H, w = .goes H → v.join w = .goes H := by
  cases v <;> cases w <;> simp_all [join]

/-- **The check is sound**: an accepted piece of code sleeps with one lock only, in every run
without marks, and ends with the locks that the check has found. -/
theorem Runs.sound {p : Skel L} {es : List (LockEvent L)} {b : Bool} (hr : Runs p es b)
    (hm : LockEvent.mark ∉ es) : ∀ {H : Finset L}, p.check H ≠ .bad →
      Alone H es ∧ (b = true → p.check H = .goes (heldAfter H es)) := by
  induction hr with
  | cut => exact fun _ => ⟨alone_nil, nofun⟩
  | skip => exact fun _ => ⟨alone_nil, fun _ => rfl⟩
  | @acquire l =>
    intro H h
    refine ⟨alone_singleton nofun, fun _ => ?_⟩
    unfold check at h ⊢
    split at h
    · exact absurd rfl h
    · rename_i hl
      rw [if_neg hl]
      rfl
  | @release l =>
    intro H h
    refine ⟨alone_singleton nofun, fun _ => ?_⟩
    unfold check at h ⊢
    split at h
    · rename_i hl
      rw [if_pos hl]
      rfl
    · exact absurd rfl h
  | @sleep l =>
    intro H h
    unfold check at h ⊢
    split at h
    · rename_i hl
      refine ⟨alone_singleton fun l' he => ?_, fun _ => ?_⟩
      · obtain rfl := LockEvent.sleep.inj he
        exact hl
      · rw [if_pos hl]
        rfl
    · exact absurd rfl h
  | mark => exact absurd (List.mem_singleton.mpr rfl) hm
  | @seqCut p _ _ hp ih | @loopCut p _ hp ih =>
    intro H h
    have hp : p.check H ≠ .bad := by
      intro hb
      simp [check, hb] at h
    exact ⟨(ih hm hp).1, nofun⟩
  | @seq p q es es' b hp hq ihp ihq =>
    intro H h
    rw [List.mem_append, not_or] at hm
    have hp : p.check H ≠ .bad := by
      intro hb
      simp [check, hb] at h
    obtain ⟨ha, hgo⟩ := ihp hm.1 hp
    rw [check_seq (hgo rfl)] at h ⊢
    obtain ⟨ha', hgo'⟩ := ihq hm.2 h
    refine ⟨ha.append ha', fun hb => ?_⟩
    rw [hgo' hb, heldAfter, heldAfter, heldAfter, List.foldl_append]
  | left _ ih =>
    intro H h
    obtain ⟨hp, hj⟩ := Verdict.join_left h
    obtain ⟨ha, hgo⟩ := ih hm hp
    exact ⟨ha, fun hb => hj _ (hgo hb)⟩
  | right _ ih =>
    intro H h
    obtain ⟨hq, hj⟩ := Verdict.join_right h
    obtain ⟨ha, hgo⟩ := ih hm hq
    exact ⟨ha, fun hb => hj _ (hgo hb)⟩
  | @loopDone p =>
    intro H h
    refine ⟨alone_nil, fun _ => ?_⟩
    rw [check] at h ⊢
    split at h
    · exact absurd rfl h
    · rfl
    · rename_i H' hp
      by_cases he : H' = H
      · simp [he, heldAfter]
      · simp [he] at h
  | @loopMore p es es' b hp hl ihp ihl =>
    intro H h
    rw [List.mem_append, not_or] at hm
    have hp : p.check H ≠ .bad := by
      intro hb
      simp [check, hb] at h
    obtain ⟨ha, hgo⟩ := ihp hm.1 hp
    -- a round ends with the locks it began with
    have hsame : heldAfter H es = H := by
      by_contra hne
      simp [check, hgo rfl, hne] at h
    obtain ⟨ha', hgo'⟩ := ihl hm.2 h
    refine ⟨ha.append (hsame.symm ▸ ha'), fun hb => ?_⟩
    rw [hgo' hb]
    simp only [heldAfter] at hsame ⊢
    rw [List.foldl_append, hsame]

end Skel
