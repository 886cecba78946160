/-
Saved contexts (`kctx_switch` after `thread_yield` and `thread_sleep`).

Both calls release `sched_lk` before they switch: in between the CPU still runs on the old
thread's stack, while the tables already name the new one.  Here every section under
`sched_lk` and every `kctx_switch` is a step, on any number of CPUs.  `saved t` says that
`kctx_pool[t]` holds the context `t` had when it last ran.

* `CtxSys.Inv` — a thread that has not been saved is executing on one CPU, and nobody else
  can take it from a ready queue;
* `CtxSys.Inv.step` — every step keeps it, if nobody wakes up a thread in the gap;
* `CtxSys.resumed_saved` — only saved contexts are loaded, on one CPU at a time;
* `CtxSys.woken_in_gap` — what a wake-up in the gap does.

Design notes: `active` are the CPUs that run.  They start with different threads, in any
state of the tables that the scheduler reaches; thread 0 is given up on CPU `z` only, as in
`Sched`.
-/
import Mcertikos.Thread.Sched

namespace Mcertikos

open Relation Function

/-- Where a CPU is: in the code of a thread, or between the release of `sched_lk` and
`kctx_switch(old, new)`. -/
inductive CtxPhase where
  | running (t : ℕ)
  | switching (old new : ℕ)
  deriving DecidableEq, Repr

/-- The thread whose code and stack a CPU uses. -/
def CtxPhase.thread : CtxPhase → ℕ
  | running t => t
  | switching old _ => old

/-- The tables, the CPUs, and which contexts are saved. -/
structure CtxSys where
  s : Sched
  phase : ℕ → CtxPhase
  saved : ℕ → Bool

namespace CtxSys

/-- All CPUs are in the code of their current threads. -/
def start (active : Finset ℕ) (s : Sched) : CtxSys where
  s := s
  phase := fun c => .running (s.curid c)
  saved := fun t => decide (∀ c ∈ active, s.curid c ≠ t)

/-- The section of `thread_yield` under `sched_lk`. -/
def threadYield (x : CtxSys) (c : ℕ) : CtxSys :=
  let old := x.s.curid c
  let s := x.s.threadYield c
  let new := s.curid c
  { x with
    s := s
    phase := if old ≠ new then update x.phase c (.switching old new) else x.phase }

/-- The first section of `thread_sleep` under `sched_lk`. -/
def threadSleep (x : CtxSys) (c chan : ℕ) : CtxSys :=
  let old := x.s.curid c
  let s := x.s.threadSleep c chan
  { x with s := s, phase := update x.phase c (.switching old (s.curid c)) }

/-- `kctx_switch(old, new)`: saves `old`, loads `new`. -/
def kctxSwitch (x : CtxSys) (c old new : ℕ) : CtxSys :=
  { x with
    phase := update x.phase c (.running new)
    saved := update (update x.saved old true) new false }

/-- The calls that can go wrong. -/
inductive Request where
  | sleep (c : ℕ)
  | wakeup (chan : ℕ)

/-- One step of an active CPU.  `ok` restricts the calls of `thread_sleep` and
`thread_wakeup`. -/
inductive Step (active : Finset ℕ) (ok : CtxSys → Request → Prop) : CtxSys → CtxSys → Prop where
  | threadYield {x : CtxSys} {c t : ℕ} (hc : c ∈ active) (hp : x.phase c = .running t) :
      Step active ok x (x.threadYield c)
  | threadSleep {x : CtxSys} {c t : ℕ} (chan : ℕ) (hc : c ∈ active)
      (hp : x.phase c = .running t) (hok : ok x (.sleep c)) :
      Step active ok x (x.threadSleep c chan)
  | threadSleepReturn {x : CtxSys} {c t : ℕ} (hc : c ∈ active) (hp : x.phase c = .running t) :
      Step active ok x { x with s := x.s.threadSleepReturn c }
  | threadWakeup {x : CtxSys} {c : ℕ} (chan : ℕ) (hc : c ∈ active) (hok : ok x (.wakeup chan)) :
      Step active ok x { x with s := x.s.threadWakeup c chan }
  | kctxSwitch {x : CtxSys} {c old new : ℕ} (hc : c ∈ active)
      (hp : x.phase c = .switching old new) : Step active ok x (x.kctxSwitch c old new)

/-- The runs from tables `s`. -/
def Reachable (active : Finset ℕ) (ok : CtxSys → Request → Prop) (s : Sched) : CtxSys → Prop :=
  ReflTransGen (Step active ok) (start active s)

/-- A `kctx_switch` that may come next loads a saved context, and no thread executes on two
CPUs. -/
def Safe (active : Finset ℕ) (x : CtxSys) : Prop :=
  (∀ c ∈ active, ∀ old new, x.phase c = .switching old new → x.saved new = true) ∧
  ∀ c ∈ active, ∀ d ∈ active, (x.phase c).thread = (x.phase d).thread → c = d

/-- `thread_sleep` finds a ready thread, and `thread_wakeup(chan)` none that sleeps on `chan`
and has not switched away yet. -/
def Orderly (active : Finset ℕ) (x : CtxSys) : Request → Prop
  | .sleep c => x.s.readyQueue c ≠ []
  | .wakeup chan => ∀ c ∈ active, ∀ old new, x.phase c = .switching old new →
    ¬ x.s.SleepsOn old chan

/-! ### The invariant -/

/-- Who executes and who can be dispatched. -/
structure Inv (z : ℕ) (active : Finset ℕ) (x : CtxSys) (q : ℕ → List ℕ) : Prop where
  sched : Sched.Inv z (fun _ => True) x.s q
  cpus : ∀ c ∈ active, c < numCpus
  running : ∀ c ∈ active, ∀ t, x.phase c = .running t → x.s.curid c = t
  -- the old thread is in the CPU's own queue or asleep, out of reach of the other CPUs
  switching : ∀ c ∈ active, ∀ old new, x.phase c = .switching old new →
    x.s.curid c = new ∧ old ≠ new ∧ (old ∈ q c ∨ x.s.state old = .sleep)
  alone : ∀ c ∈ active, ∀ d ∈ active, (x.phase c).thread = (x.phase d).thread → c = d
  saved : ∀ t, x.saved t = true ↔ ∀ c ∈ active, (x.phase c).thread ≠ t
  zero : ∀ c ∈ active, x.s.curid c = 0 ∨ (x.phase c).thread = 0 → c = z

namespace Inv

variable {z c : ℕ} {active : Finset ℕ} {x : CtxSys} {q : ℕ → List ℕ}

section

variable (h : Inv z active x q)
include h

/-- The current thread of a CPU does not execute on another one. -/
theorem curid_ne (hc : c ∈ active) {d : ℕ} (hd : d ∈ active) (hdc : d ≠ c) :
    (x.phase d).thread ≠ x.s.curid c := by
  intro he
  rcases Nat.eq_zero_or_pos (x.s.curid c) with h0 | hpos
  · -- thread 0 stays on one CPU
    have hcz := h.zero c hc (.inl h0)
    have hdz := h.zero d hd (.inr (he.trans h0))
    exact hdc (hdz.trans hcz.symm)
  · cases hp : x.phase d with
    | running t =>
      rw [hp] at he
      have hcur : x.s.curid d = x.s.curid c := (h.running d hd t hp).trans he
      exact hdc (h.sched.alone d c trivial trivial hcur (by omega))
    | switching old new =>
      rw [hp] at he
      obtain rfl : old = x.s.curid c := he
      obtain ⟨-, -, hq | hs⟩ := h.switching d hd _ _ hp
      · have hr := (h.sched.ready _ hpos (h.sched.current c trivial)).mpr ⟨d, hq⟩
        rw [h.sched.state_curid hpos] at hr
        exact nomatch hr
      · rw [h.sched.state_curid hpos] at hs
        exact nomatch hs

/-- The context that a CPU is about to load is saved. -/
theorem saved_new (hc : c ∈ active) {old new : ℕ}
    (hp : x.phase c = .switching old new) : x.saved new = true := by
  obtain ⟨hcur, hne, -⟩ := h.switching c hc old new hp
  rw [h.saved]
  intro d hd
  by_cases hdc : d = c
  · rw [hdc, hp]
    exact hne
  · rw [← hcur]
    exact h.curid_ne hc hd hdc

theorem safe : Safe active x :=
  ⟨fun _ hc _ _ hp => h.saved_new hc hp, h.alone⟩

theorem kctxSwitch (hc : c ∈ active) {old new : ℕ}
    (hp : x.phase c = .switching old new) : Inv z active (x.kctxSwitch c old new) q := by
  obtain ⟨hcur, hne, -⟩ := h.switching c hc old new hp
  have hnew := (h.saved new).mp (h.saved_new hc hp)
  have hself : ((x.kctxSwitch c old new).phase c) = .running new := update_self ..
  have hother : ∀ d, d ≠ c → (x.kctxSwitch c old new).phase d = x.phase d :=
    fun d hd => update_of_ne hd ..
  constructor
  · exact h.sched
  · exact h.cpus
  · intro d hd t ht
    by_cases hdc : d = c
    · subst hdc
      rw [hself] at ht
      exact hcur.trans (CtxPhase.running.inj ht)
    · rw [hother d hdc] at ht
      exact h.running d hd t ht
  · intro d hd old' new' hp'
    by_cases hdc : d = c
    · subst hdc
      rw [hself] at hp'
      exact nomatch hp'
    · rw [hother d hdc] at hp'
      exact h.switching d hd old' new' hp'
  · intro d hd e he hde
    by_cases hdc : d = c <;> by_cases hec : e = c
    · exact hdc.trans hec.symm
    · rw [hdc, hself, hother e hec] at hde
      exact absurd hde.symm (hnew e he)
    · rw [hec, hself, hother d hdc] at hde
      exact absurd hde (hnew d hd)
    · rw [hother d hdc, hother e hec] at hde
      exact h.alone d hd e he hde
  · intro t
    show update (update x.saved old true) new false t = true ↔ _
    by_cases htn : t = new
    · subst htn
      rw [update_self]
      refine ⟨nofun, fun hall => absurd ?_ (hall c hc)⟩
      rw [hself]
      rfl
    rw [update_of_ne htn]
    by_cases hto : t = old
    · -- the old thread has left the only CPU that executed it
      subst hto
      rw [update_self]
      refine ⟨fun _ d hd hdt => ?_, fun _ => rfl⟩
      by_cases hdc : d = c
      · rw [hdc, hself] at hdt
        exact htn hdt.symm
      · rw [hother d hdc] at hdt
        exact hdc (h.alone d hd c hc (hdt.trans (by rw [hp]; rfl)))
    · rw [update_of_ne hto, h.saved]
      refine forall₂_congr fun d hd => ?_
      by_cases hdc : d = c
      · rw [hdc, hself, hp]
        exact iff_of_true (Ne.symm hto) (Ne.symm htn)
      · rw [hother d hdc]
  · intro d hd hz
    by_cases hdc : d = c
    · subst hdc
      rw [hself] at hz
      exact h.zero d hd (.inl (hz.elim id fun hn => hcur.trans hn))
    · rw [hother d hdc] at hz
      exact h.zero d hd hz

/-- The tables change, but no CPU gets another thread. -/
theorem congr {s' : Sched} {q' : ℕ → List ℕ}
    (hs' : Sched.Inv z (fun _ => True) s' q') (hcur : s'.curid = x.s.curid)
    (hold : ∀ d ∈ active, ∀ old new, x.phase d = .switching old new →
      old ∈ q d ∨ x.s.state old = .sleep → old ∈ q' d ∨ s'.state old = .sleep) :
    Inv z active { x with s := s' } q' where
  sched := hs'
  cpus := h.cpus
  running := by
    rw [hcur]
    exact h.running
  switching := by
    intro d hd old new hp
    obtain ⟨hc, hne, ho⟩ := h.switching d hd old new hp
    exact ⟨by rw [hcur]; exact hc, hne, hold d hd old new hp ho⟩
  alone := h.alone
  saved := h.saved
  zero := by
    rw [hcur]
    exact h.zero

/-- Another CPU's old thread is neither the current thread of a CPU nor in its queue. -/
theorem old_ne (hc : c ∈ active) {d old new : ℕ} (hd : d ∈ active)
    (hdc : d ≠ c) (hp : x.phase d = .switching old new) :
    old ≠ x.s.curid c ∧ (x.s.state old = .sleep → old ∉ q c) := by
  refine ⟨fun he => h.curid_ne hc hd hdc (by rw [hp]; exact he), fun hs hq => ?_⟩
  rcases Nat.eq_zero_or_pos old with h0 | hpos
  · have hdz := h.zero d hd (.inr (by rw [hp]; exact h0))
    exact hdc (hdz.trans (h.sched.zero c (h0 ▸ hq)).1.symm)
  · rw [(h.sched.ready old hpos (h.sched.queues.ids c old hq)).mpr ⟨c, hq⟩] at hs
    exact nomatch hs

/-- **A CPU takes the thread `new` from its queue** and is about to switch to it. -/
theorem switchOut (hc : c ∈ active) {t new : ℕ}
    (hp : x.phase c = .running t) {s' : Sched} {q' : ℕ → List ℕ} (st : TState)
    (hs' : Sched.Inv z (fun _ => True) s' q') (hq' : ∀ d, d ≠ c → q' d = q d)
    (hcur : s'.curid = update x.s.curid c new)
    (hst : s'.state = update (update x.s.state t st) new .run)
    (hnew : new ∈ q c) (hne : t ≠ new) (hold : t ∈ q' c ∨ st = .sleep) :
    Inv z active { x with s := s', phase := update x.phase c (.switching t new) } q' := by
  have ht := h.running c hc t hp
  -- the thread that executes stays the same on every CPU
  have hthread : ∀ d, (update x.phase c (.switching t new) d).thread
      = (x.phase d).thread := by
    intro d
    rw [update_apply]
    split
    · rename_i hd
      rw [hd, hp]
      rfl
    · rfl
  constructor
  · exact hs'
  · exact h.cpus
  · intro d hd t' hp'
    have hdc : d ≠ c := by
      rintro rfl
      simp at hp'
    rw [hcur, update_of_ne hdc]
    exact h.running d hd t' (by simpa [update_of_ne hdc] using hp')
  · intro d hd old new' hp'
    dsimp only at hp' ⊢
    by_cases hdc : d = c
    · subst hdc
      rw [update_self] at hp'
      obtain ⟨rfl, rfl⟩ := CtxPhase.switching.inj hp'
      refine ⟨by rw [hcur, update_self], hne, hold.imp id fun he => ?_⟩
      rw [hst, update_of_ne hne, update_self, he]
    · rw [update_of_ne hdc] at hp'
      obtain ⟨hc', hne', ho⟩ := h.switching d hd old new' hp'
      obtain ⟨hoc, hoq⟩ := h.old_ne hc hd hdc hp'
      refine ⟨by rw [hcur, update_of_ne hdc]; exact hc', hne', ?_⟩
      rw [hq' d hdc]
      refine ho.imp id fun hs => ?_
      have hon : old ≠ new := fun he => hoq hs (he ▸ hnew)
      rw [hst, update_of_ne hon, update_of_ne (ht ▸ hoc)]
      exact hs
  · intro d hd e he hde
    dsimp only at hde
    rw [hthread, hthread] at hde
    exact h.alone d hd e he hde
  · intro a
    dsimp only
    rw [h.saved]
    simp only [hthread]
  · intro d hd hz
    dsimp only at hz
    rw [hthread, hcur] at hz
    by_cases hdc : d = c
    · subst hdc
      rw [update_self] at hz
      rcases hz with hz | hz
      · exact (h.sched.zero d (hz ▸ hnew)).1
      · exact h.zero d hd (.inr hz)
    · rw [update_of_ne hdc] at hz
      exact h.zero d hd hz

theorem threadYield (hc : c ∈ active) {t : ℕ}
    (hp : x.phase c = .running t) : ∃ q', Inv z active (x.threadYield c) q' := by
  have ht := h.running c hc t hp
  have hcpu := h.cpus c hc
  obtain ⟨new, l, hl⟩ := List.exists_cons_of_ne_nil (l := q c ++ [x.s.curid c]) (by simp)
  obtain ⟨hs', hcur, hst, -⟩ := h.sched.threadYield_next hcpu (fun h0 => h.zero c hc (.inl h0)) hl
  have hnew : (x.s.threadYield c).curid c = new := by rw [hcur, update_self]
  have hmem : new ∈ q c ++ [x.s.curid c] := by rw [hl]; simp
  refine ⟨update q c l, ?_⟩
  unfold CtxSys.threadYield
  dsimp only
  rw [hnew]
  split
  · rename_i hne
    have hnq : new ∈ q c := (List.mem_append.mp hmem).resolve_right fun hm =>
      hne (List.mem_singleton.mp hm).symm
    have htl : x.s.curid c ∈ l := by
      have hm : x.s.curid c ∈ new :: l := by rw [← hl]; simp
      exact (List.mem_cons.mp hm).resolve_left hne
    refine h.switchOut hc (ht ▸ hp) .ready hs' ?_ hcur hst hnq hne (.inl ?_)
    · exact fun d hd => update_of_ne hd ..
    · rwa [update_self]
  · -- the only thread of the CPU goes on
    rename_i he
    rw [ne_eq, not_not] at he
    refine h.congr hs' (by rw [hcur, ← he, update_eq_self]) ?_
    intro d hd old new' hp' ho
    have hdc : d ≠ c := by
      rintro rfl
      rw [hp] at hp'
      exact nomatch hp'
    rw [update_of_ne hdc]
    refine ho.imp id fun hs => ?_
    have hoc := (h.old_ne hc hd hdc hp').1
    rw [hst, ← he, update_of_ne hoc, update_of_ne hoc]
    exact hs

theorem threadSleep (hc : c ∈ active) {t : ℕ}
    (hp : x.phase c = .running t) (hq : x.s.readyQueue c ≠ []) (chan : ℕ) :
    ∃ q', Inv z active (x.threadSleep c chan) q' := by
  have ht := h.running c hc t hp
  rw [h.sched.queues.readyQueue] at hq
  obtain ⟨new, l, hl⟩ := List.exists_cons_of_ne_nil hq
  obtain ⟨hs', hcur, hst, -⟩ := h.sched.threadSleep_next (h.cpus c hc) hl chan
  have hnq : new ∈ q c := by rw [hl]; simp
  -- a current thread is in no queue
  have hne : x.s.curid c ≠ new := by
    intro he
    rcases Nat.eq_zero_or_pos new with h0 | hpos
    · obtain ⟨hcz, hcur0⟩ := h.sched.zero c (h0 ▸ hnq)
      exact hcur0 trivial (by rw [← hcz, he, h0])
    · have hr := (h.sched.ready new hpos (h.sched.queues.ids c new hnq)).mpr ⟨c, hnq⟩
      rw [← he, h.sched.state_curid (he ▸ hpos)] at hr
      exact nomatch hr
  refine ⟨update q c l, ?_⟩
  have hnew : (x.s.threadSleep c chan).curid c = new := by rw [hcur, update_self]
  unfold CtxSys.threadSleep
  dsimp only
  rw [hnew]
  exact h.switchOut hc (ht ▸ hp) .sleep hs' (fun d hd => update_of_ne hd ..) hcur
    hst hnq hne (.inr rfl)

theorem threadWakeup (hc : c ∈ active) {chan : ℕ} (hok : Orderly active x (.wakeup chan)) :
    ∃ q', Inv z active { x with s := x.s.threadWakeup c chan } q' := by
  obtain ⟨q', hs', hkeep⟩ := h.sched.threadWakeup (h.cpus c hc) chan
  refine ⟨q', h.congr hs' (Sched.threadWakeup_curid ..) ?_⟩
  intro d hd old new hp ho
  have hno := hok d hd old new hp
  refine ho.imp (hkeep old hno d).mpr fun hs => ?_
  rw [(Sched.threadWakeup_other hno c).1]
  exact hs

/-- **Every orderly step keeps the invariant.** -/
theorem step {x' : CtxSys} (hs : Step active (Orderly active) x x') : ∃ q', Inv z active x' q' := by
  cases hs with
  | threadYield hc hp => exact h.threadYield hc hp
  | threadSleep chan hc hp hok => exact h.threadSleep hc hp hok chan
  | threadSleepReturn hc hp =>
    exact ⟨q, h.congr (h.sched.tcbSetChan _ _) rfl fun _ _ _ _ _ ho => ho⟩
  | threadWakeup chan hc hok => exact h.threadWakeup hc hok
  | kctxSwitch hc hp => exact ⟨q, h.kctxSwitch hc hp⟩

end

theorem start {s : Sched} (hs : Sched.Inv z (fun _ => True) s q)
    (hactive : ∀ c ∈ active, c < numCpus ∧ (s.curid c = 0 → c = z)) :
    Inv z active (start active s) q where
  sched := hs
  cpus := fun c hc => (hactive c hc).1
  running := fun _ _ _ hp => CtxPhase.running.inj hp
  switching := nofun
  alone := by
    intro c hc d hd he
    change s.curid c = s.curid d at he
    by_cases h0 : s.curid c = 0
    · exact ((hactive c hc).2 h0).trans ((hactive d hd).2 (he ▸ h0)).symm
    · exact hs.alone c d trivial trivial he h0
  saved := fun t => decide_eq_true_iff
  zero := fun c hc hz => (hactive c hc).2 (hz.elim id id)

end Inv

/-- **Threads are resumed from saved contexts.**  On any CPUs that start with different
threads, in any run in which `thread_sleep` finds a ready thread and nobody wakes up a thread
that has not switched away yet: a switch loads a saved context, and no thread executes on two
CPUs. -/
theorem resumed_saved {idle ding z : ℕ} (hi : 1 ≤ idle ∧ idle < numIds)
    (hd : 1 ≤ ding ∧ ding < numIds) (hne : idle ≠ ding) {r : SchedRun}
    (hrun : SchedRun.Reachable (· = z) idle ding r) {active : Finset ℕ}
    (hactive : ∀ c ∈ active, c < numCpus ∧ (r.s.curid c = 0 → c = z)) {x : CtxSys}
    (hx : Reachable active (Orderly active) r.s x) : Safe active x := by
  obtain ⟨⟨q, hq⟩, -⟩ := SchedRun.inv_of_run hi hd hne hrun
  obtain ⟨q', hinv⟩ : ∃ q', Inv z active x q' := by
    induction hx with
    | refl => exact ⟨q, Inv.start hq hactive⟩
    | tail _ hs ih =>
      obtain ⟨q', h'⟩ := ih
      exact h'.step hs
  exact hinv.safe

/-- CPU 0 puts its thread to sleep and switches to the next one before CPU 1 wakes it up. -/
theorem resumed_saved_sleepWake : ∃ x, Reachable {0, 1} (Orderly {0, 1}) (Sched.kernMain 1 2) x ∧
    x.phase 0 = .running 1 ∧ x.phase 1 = .switching 0 2 ∧ Safe {0, 1} x := by
  have h₁ : Reachable {0, 1} (Orderly {0, 1}) (Sched.kernMain 1 2) _ :=
    ReflTransGen.refl.tail (.threadSleep (c := 0) (t := 2) 5 (by decide) (by decide +kernel)
        (show (Sched.kernMain 1 2).readyQueue 0 ≠ [] by decide +kernel))
  have h₂ := h₁.tail (.kctxSwitch (c := 0) (by decide) rfl)
  have h₃ := h₂.tail (.threadWakeup (c := 1) 5 (by decide) (by
    intro c hc old new hp
    rcases (by simpa using hc : c = 0 ∨ c = 1) with rfl | rfl <;> exact nomatch hp))
  have h₄ := h₃.tail (.threadYield (c := 1) (t := 0) (by decide) (by decide +kernel))
  refine ⟨_, h₄, by decide +kernel, by decide +kernel, ?_⟩
  exact resumed_saved (z := 1) (r := ⟨Sched.kernMain 1 2, []⟩) (by decide) (by decide) (by decide)
    .refl (by decide +kernel) h₄

/-- **A wake-up in the gap.**  CPU 1 wakes up thread 2 between the `thread_sleep` of CPU 0 and
its `kctx_switch`, and yields to it: the context it loads was never saved, and thread 2
executes on both CPUs. -/
theorem woken_in_gap : ∃ x, Reachable {0, 1} (fun _ _ => True) (Sched.kernMain 1 2) x ∧
    x.phase 1 = .switching 0 2 ∧ x.saved 2 = false ∧
    ((x.kctxSwitch 1 0 2).phase 0).thread = ((x.kctxSwitch 1 0 2).phase 1).thread := by
  have h₁ : Reachable {0, 1} (fun _ _ => True) (Sched.kernMain 1 2) _ :=
    ReflTransGen.refl.tail
      (.threadSleep (c := 0) (t := 2) 5 (by decide) (by decide +kernel) trivial)
  have h₂ := h₁.tail (.threadWakeup (c := 1) 5 (by decide) trivial)
  have h₃ := h₂.tail (.threadYield (c := 1) (t := 0) (by decide) (by decide +kernel))
  exact ⟨_, h₃, by decide +kernel, by decide +kernel, by decide +kernel⟩

end CtxSys

end Mcertikos
