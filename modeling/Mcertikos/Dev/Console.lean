/-
Console input (`dev/console.c`).

`cons_intr` puts the characters that a driver has into a ring, and `cons_getc` takes one out
after it has polled the drivers.  There is no count: a full ring would look like an empty one,
and nothing stops `cons_intr` from going around.

* `Cons.Holds` — the slots from `rpos` to `wpos` hold the unread characters in order;
* `console_fifo` — both positions stay inside of the buffer, and as long as fewer characters
  than slots are unread, what `cons_getc` returns is what was delivered, in order.

Design notes: each of the two functions holds `cons_lk` while it is in the ring, so a run is a
sequence of such sections.  A call of `cons_getc` is a section of `cons_intr` for each driver
and then one that takes a character, and other interrupts may come in between.  The drivers
return bytes, and `-1` at the end of a batch.
-/
import Mathlib.Tactic

namespace Mcertikos

open List Function

/-- `CONSOLE_BUFFER_SIZE`. -/
def consoleBufferSize : ℕ := 512

structure Cons where
  buf : ℕ → UInt8
  rpos : ℕ
  wpos : ℕ

namespace Cons

def consInit : Cons := ⟨fun _ => 0, 0, 0⟩

/-- A position after an access. -/
def bump (pos : ℕ) : ℕ := if pos + 1 = consoleBufferSize then 0 else pos + 1

/-- One round of the loop of `cons_intr`. -/
def put (s : Cons) (c : UInt8) : Cons :=
  if c = 0 then s
  else { s with buf := update s.buf s.wpos c, wpos := bump s.wpos }

/-- `cons_intr`, with what the driver returns before `-1`. -/
def consIntr (s : Cons) (batch : List UInt8) : Cons := batch.foldl put s

/-- The section of `cons_getc` that takes a character. -/
def consGetc (s : Cons) : UInt8 × Cons :=
  if s.rpos ≠ s.wpos then (s.buf s.rpos, { s with rpos := bump s.rpos }) else (0, s)

/-! ### Runs -/

inductive Event where
  | intr (batch : List UInt8)
  | getc

/-- A section, with the characters returned so far. -/
def step (r : Cons × List UInt8) : Event → Cons × List UInt8
  | .intr batch => (r.1.consIntr batch, r.2)
  | .getc => (r.1.consGetc.2, r.2 ++ [r.1.consGetc.1])

def run (es : List Event) : Cons × List UInt8 := es.foldl step (consInit, [])

/-- The characters that a section delivers. -/
def Event.chars : Event → List UInt8
  | .intr batch => batch.filter (· ≠ 0)
  | .getc => []

/-- The characters delivered, in order. -/
def delivered (es : List Event) : List UInt8 := es.flatMap Event.chars

/-- The characters returned, in order. -/
def returned (es : List Event) : List UInt8 := (run es).2.filter (· ≠ 0)

/-- At any time fewer characters are unread than there are slots. -/
def Fits (es : List Event) : Prop :=
  ∀ es', es' <+: es → (delivered es').length < (returned es').length + consoleBufferSize

variable {s : Cons} {u : List UInt8} {c : UInt8}

theorem bump_lt {pos : ℕ} (h : pos < consoleBufferSize) : bump pos < consoleBufferSize := by
  unfold bump
  split <;> omega

/-- The slots from a position on. -/
theorem bump_slot (pos i : ℕ) :
    (bump pos + i) % consoleBufferSize = (pos + (i + 1)) % consoleBufferSize := by
  unfold bump
  unfold consoleBufferSize
  split <;> omega

theorem slot_ne {pos i n : ℕ} (hi : i < n) (hn : n < consoleBufferSize) :
    (pos + i) % consoleBufferSize ≠ (pos + n) % consoleBufferSize := by
  unfold consoleBufferSize at hn ⊢
  omega

theorem positions_put (hr : s.rpos < consoleBufferSize) (hw : s.wpos < consoleBufferSize)
    (c : UInt8) :
    (s.put c).rpos < consoleBufferSize ∧ (s.put c).wpos < consoleBufferSize := by
  unfold put
  split
  · exact ⟨hr, hw⟩
  · exact ⟨hr, bump_lt hw⟩

theorem positions_step {r : Cons × List UInt8} (hr : r.1.rpos < consoleBufferSize)
    (hw : r.1.wpos < consoleBufferSize) (e : Event) :
    (step r e).1.rpos < consoleBufferSize ∧ (step r e).1.wpos < consoleBufferSize := by
  cases e with
  | intr batch =>
    obtain ⟨s, out⟩ := r
    show (batch.foldl put s).rpos < _ ∧ (batch.foldl put s).wpos < _
    induction batch generalizing s with
    | nil => exact ⟨hr, hw⟩
    | cons c batch ih =>
      obtain ⟨hr', hw'⟩ := positions_put hr hw c
      exact ih (s.put c) hr' hw'
  | getc =>
    show (r.1.consGetc).2.rpos < _ ∧ (r.1.consGetc).2.wpos < _
    unfold consGetc
    split
    · exact ⟨bump_lt hr, hw⟩
    · exact ⟨hr, hw⟩

/-! ### The unread characters -/

/-- The characters `u` are unread. -/
structure Holds (s : Cons) (u : List UInt8) : Prop where
  rpos : s.rpos < consoleBufferSize
  wpos : s.wpos = (s.rpos + u.length) % consoleBufferSize
  fits : u.length < consoleBufferSize
  slots : ∀ i (hi : i < u.length), s.buf ((s.rpos + i) % consoleBufferSize) = u[i]
  nonzero : 0 ∉ u

theorem Holds.put (h : s.Holds u) (hc : c ≠ 0) (hfits : u.length + 1 < consoleBufferSize) :
    (s.put c).Holds (u ++ [c]) := by
  have hlen : (u ++ [c]).length = u.length + 1 := by simp
  have hw : s.wpos < consoleBufferSize := h.wpos ▸ Nat.mod_lt _ (by decide)
  unfold Cons.put
  rw [if_neg hc]
  refine ⟨h.rpos, ?_, by rwa [hlen], fun i hi => ?_, ?_⟩
  · have hnext := bump_slot s.wpos 0
    rw [Nat.add_zero, Nat.mod_eq_of_lt (bump_lt hw)] at hnext
    dsimp only
    rw [hnext, h.wpos, hlen, Nat.zero_add, Nat.mod_add_mod, Nat.add_assoc]
  · dsimp only
    rw [hlen] at hi
    rcases Nat.lt_succ_iff_lt_or_eq.mp hi with hi' | rfl
    · have hne : (s.rpos + i) % consoleBufferSize ≠ s.wpos := h.wpos ▸ slot_ne hi' (by omega)
      rw [update_of_ne hne, getElem_append_left hi']
      exact h.slots i hi'
    · rw [← h.wpos, update_self, getElem_concat_length rfl]
  · rw [mem_append, mem_singleton, not_or]
    exact ⟨h.nonzero, fun he => hc he.symm⟩

/-- A batch that fits comes behind what is unread. -/
theorem Holds.consIntr : ∀ {batch : List UInt8} {s : Cons} {u : List UInt8}, s.Holds u →
    u.length + (batch.filter (· ≠ 0)).length < consoleBufferSize →
    (s.consIntr batch).Holds (u ++ batch.filter (· ≠ 0)) := by
  intro batch
  induction batch with
  | nil =>
    intro s u h _
    rw [filter_nil, append_nil]
    exact h
  | cons c batch ih =>
    intro s u h hfits
    by_cases hc : c = 0
    · have hput : s.put c = s := if_pos hc
      rw [filter_cons_of_neg (by simp [hc])] at hfits ⊢
      have hrest := ih h hfits
      rw [← hput] at hrest
      exact hrest
    · rw [filter_cons_of_pos (by simp [hc])] at hfits ⊢
      rw [length_cons] at hfits
      have hrest := ih (h.put hc (by omega)) (by rw [length_append, length_singleton]; omega)
      rwa [append_assoc] at hrest

theorem Holds.consGetc_nil (h : s.Holds []) : s.consGetc = (0, s) := by
  refine if_neg (not_not.mpr ?_)
  rw [h.wpos, length_nil, Nat.add_zero, Nat.mod_eq_of_lt h.rpos]

theorem Holds.consGetc_cons (h : s.Holds (c :: u)) : s.consGetc.1 = c ∧ s.consGetc.2.Holds u := by
  have hr : (s.rpos + 0) % consoleBufferSize = s.rpos := Nat.mod_eq_of_lt h.rpos
  have hne : s.rpos ≠ s.wpos := by
    rw [h.wpos, ← hr, Nat.add_zero, Nat.mod_add_mod]
    exact slot_ne (Nat.succ_pos _) h.fits
  have hget : s.consGetc = (s.buf s.rpos, { s with rpos := bump s.rpos }) := if_pos hne
  have hfirst := h.slots 0 (Nat.succ_pos _)
  rw [hr] at hfirst
  rw [hget]
  refine ⟨hfirst, bump_lt h.rpos, ?_, Nat.lt_of_succ_lt h.fits, fun i hi => ?_,
    fun h0 => h.nonzero (.tail _ h0)⟩
  · dsimp only
    rw [h.wpos, bump_slot, length_cons]
  · dsimp only
    rw [bump_slot]
    exact h.slots (i + 1) (Nat.succ_lt_succ hi)

theorem run_append (es : List Event) (e : Event) : run (es ++ [e]) = step (run es) e := by
  rw [run, foldl_append]
  rfl

theorem delivered_append (es : List Event) (e : Event) :
    delivered (es ++ [e]) = delivered es ++ e.chars := by
  rw [delivered, flatMap_append, flatMap_singleton]
  rfl

theorem returned_append (es : List Event) (e : Event) :
    returned (es ++ [e]) = returned es ++ match e with
      | .intr _ => []
      | .getc => [(run es).1.consGetc.1].filter (· ≠ 0) := by
  rw [returned, run_append]
  cases e with
  | intr batch => exact (append_nil _).symm
  | getc => exact filter_append ..

/-- The unread characters are the delivered ones that have not been returned. -/
theorem holds_run (es : List Event) : Fits es →
    ∃ u, (run es).1.Holds u ∧ delivered es = returned es ++ u := by
  induction es using reverseRecOn with
  | nil =>
    intro _
    exact ⟨[], ⟨by decide, rfl, by decide, nofun, by simp⟩, rfl⟩
  | append_singleton es e ih =>
    intro hfits
    obtain ⟨u, hu, hdel⟩ := ih fun es' hes' => hfits es' (hes'.trans (prefix_append ..))
    have hlast := hfits _ prefix_rfl
    rw [delivered_append, returned_append] at hlast ⊢
    rw [run_append, hdel]
    rw [hdel] at hlast
    cases e with
    | intr batch =>
      refine ⟨u ++ batch.filter (· ≠ 0), hu.consIntr ?_, by simp [Event.chars]⟩
      simp only [Event.chars, length_append, length_nil] at hlast
      omega
    | getc =>
      cases u with
      | nil =>
        rw [hu.consGetc_nil]
        exact ⟨[], by rw [step, hu.consGetc_nil]; exact hu, by simp [Event.chars]⟩
      | cons c u =>
        obtain ⟨hc, hrest⟩ := hu.consGetc_cons
        have hne : c ≠ 0 := fun he => hu.nonzero (by simp [he])
        exact ⟨u, hrest, by rw [hc]; simp [Event.chars, hne]⟩

/-- **Console input is a FIFO.**  In every run both positions stay inside of the buffer.  If it
fits, what was returned is the first part of what was delivered, and the next `cons_getc` returns
`0` only if that is all of it. -/
theorem console_fifo (es : List Event) :
    ((run es).1.rpos < consoleBufferSize ∧ (run es).1.wpos < consoleBufferSize) ∧
    (Fits es → returned es <+: delivered es ∧
      ((run es).1.consGetc.1 = 0 ↔ returned es = delivered es)) := by
  refine ⟨?_, fun hfits => ?_⟩
  · induction es using reverseRecOn with
    | nil => exact ⟨by decide, by decide⟩
    | append_singleton es e ih =>
      rw [run_append]
      exact positions_step ih.1 ih.2 e
  · obtain ⟨u, hu, hdel⟩ := holds_run es hfits
    refine ⟨⟨u, hdel.symm⟩, ?_⟩
    cases u with
    | nil =>
      rw [hu.consGetc_nil, hdel, append_nil]
      exact iff_of_true rfl rfl
    | cons c u =>
      rw [hu.consGetc_cons.1, hdel]
      refine iff_of_false (fun he => hu.nonzero (by simp [he])) fun he => ?_
      exact absurd (congrArg length he) (by simp)

/-- A batch with a key release in the middle, read by three calls. -/
theorem console_fifo_batch :
    Fits [.intr [104, 0, 105], .getc, .getc] ∧
    returned [.intr [104, 0, 105], .getc, .getc] = [104, 105] ∧
    (run [.intr [104, 0, 105], .getc, .getc]).1.consGetc.1 = 0 := by
  have hfits : Fits [.intr [104, 0, 105], .getc, .getc] := by
    intro es' hes'
    rw [prefix_iff_eq_take] at hes'
    have hlen : es'.length ≤ 3 := hes' ▸ (length_take_le' _ _)
    have hdel : (delivered es').length ≤ 2 := by
      rw [hes']
      interval_cases es'.length <;> decide
    have hsize : consoleBufferSize = 512 := rfl
    omega
  exact ⟨hfits, by decide, ((console_fifo _).2 hfits).2.mpr (by decide)⟩

end Cons

end Mcertikos
