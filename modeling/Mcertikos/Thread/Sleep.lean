/-
Sleeping and waking up (`thread_sleep`, `thread_wakeup`) around one condition.

A condition is protected by a lock `lk`.  A thread that finds it false calls
`thread_sleep(chan, lk)`; whoever makes it true calls `thread_wakeup(chan)` before
it gives the lock up.  The two calls are split at every access to a lock, to a
thread control block and to the ready queue, and the steps of all threads
interleave.  `lk` and `sched_lk` exclude each other's holders.

* `SleepSys.Inv.pending` — a thread between the release of `lk` in `thread_sleep` and
  its wake-up has, if the condition is true, a waker in front of it that has not
  come to it yet;
* `SleepSys.no_lost_wakeup` — no thread is left asleep.

Design notes: agents below `NUM_IDS` are threads, the others stand for interrupt
handlers, which may wake up but not sleep.  Which CPU a step runs on is left open,
so that more interleavings are allowed than the machine has.  Calls of the
scheduler that have nothing to do with the condition run as one step.
-/
import Mcertikos.Thread.Sched

namespace Mcertikos

open Relation Function

/-- Where an agent is. -/
inductive SleepPc where
  /-- Outside of the section `lk` protects. -/
  | idle
  /-- Holds `lk`. -/
  | locked
  /-- Has made the condition true, calls `thread_wakeup` and waits for `sched_lk`. -/
  | waking
  /-- In the loop of `thread_wakeup`, about to look at thread `pid`. -/
  | loop (pid : ℕ)
  /-- Calls `thread_sleep` and waits for `sched_lk`. -/
  | entering
  /-- Holds both locks. -/
  | both
  /-- Has released `lk`. -/
  | unlocked
  /-- Has set its state to `TSTATE_SLEEP`. -/
  | marked
  /-- Has set its channel. -/
  | parked
  /-- Has made the next thread of the ready queue the current one. -/
  | switched
  /-- Has released `sched_lk` and switched away. -/
  | off
  /-- Switched to again, holds `sched_lk`. -/
  | back
  /-- Has cleared its channel. -/
  | cleared
  /-- Has released `sched_lk`, waits for `lk`. -/
  | relock
  /-- Sleeps on another channel. -/
  | away
  deriving DecidableEq, Repr

namespace SleepPc

def HoldsLk : SleepPc → Prop
  | locked | waking | loop _ | entering | both => True
  | _ => False

def HoldsSched : SleepPc → Prop
  | loop _ | both | unlocked | marked | parked | switched | back | cleared => True
  | _ => False

/-- A wake-up is in progress. -/
def Waking : SleepPc → Prop
  | waking | loop _ => True
  | _ => False

/-- Past the release of `lk` in `thread_sleep`, and not yet out of reach of
`thread_wakeup` by having given up `sched_lk`. -/
def GoingToSleep : SleepPc → Prop
  | unlocked | marked | parked | switched => True
  | _ => False

/-- Where a thread may have state `TSTATE_SLEEP`. -/
def MaySleep : SleepPc → Prop
  | marked | parked | switched | off | away => True
  | _ => False

/-- Neither going to sleep nor waking anybody up. -/
def Quiet : SleepPc → Prop
  | idle | locked | back | cleared | relock => True
  | _ => False

/-- A waker that has not come to thread `t` yet. -/
def Before (t : ℕ) : SleepPc → Prop
  | waking => True
  | loop pid => pid ≤ t
  | _ => False

end SleepPc

/-- The scheduler, the two locks, the condition, and where every agent is. -/
structure SleepSys where
  s : Sched
  lk : Option ℕ
  schedLk : Option ℕ
  cond : Bool
  pc : ℕ → SleepPc

namespace SleepSys

def goto (σ : SleepSys) (a : ℕ) (p : SleepPc) : SleepSys :=
  { σ with pc := update σ.pc a p }

/-- Nobody uses the condition yet; threads may be asleep on other channels. -/
structure Start (chan : ℕ) (σ : SleepSys) : Prop where
  lk : σ.lk = none
  schedLk : σ.schedLk = none
  outside : ∀ a, σ.pc a = .idle ∨ σ.pc a = .away
  asleep : ∀ t, σ.s.state t = .sleep → σ.pc t = .away ∧ σ.s.channel t ≠ chan

/-- One step of agent `a`. -/
inductive Step (chan : ℕ) : SleepSys → SleepSys → Prop
  -- the section `lk` protects
  | acquire {σ : SleepSys} (a : ℕ) (ha : σ.pc a = .idle) (hlk : σ.lk = none) :
    Step chan σ ({ σ with lk := some a }.goto a .locked)
  | release {σ : SleepSys} (a : ℕ) (ha : σ.pc a = .locked) :
    Step chan σ ({ σ with lk := none }.goto a .idle)
  | makeFalse {σ : SleepSys} (a : ℕ) (ha : σ.pc a = .locked) : Step chan σ { σ with cond := false }
  | makeTrue {σ : SleepSys} (a : ℕ) (ha : σ.pc a = .locked) :
    Step chan σ ({ σ with cond := true }.goto a .waking)
  -- `thread_wakeup(chan)`
  | wakeupLock {σ : SleepSys} (a : ℕ) (ha : σ.pc a = .waking) (hlk : σ.schedLk = none) :
    Step chan σ ({ σ with schedLk := some a }.goto a (.loop 1))
  | wakeupOne {σ : SleepSys} (a c pid : ℕ) (ha : σ.pc a = .loop pid) (hpid : pid < numIds) :
    Step chan σ ({ σ with s := Sched.wakeOne c chan σ.s pid }.goto a (.loop (pid + 1)))
  | wakeupUnlock {σ : SleepSys} (a : ℕ) (ha : σ.pc a = .loop numIds) :
    Step chan σ ({ σ with schedLk := none }.goto a .locked)
  -- `thread_sleep(chan, lk)`
  | sleep {σ : SleepSys} (t : ℕ) (ht : t < numIds) (ha : σ.pc t = .locked) (hc : σ.cond = false) :
    Step chan σ (σ.goto t .entering)
  | sleepLock {σ : SleepSys} (t : ℕ) (ha : σ.pc t = .entering) (hlk : σ.schedLk = none) :
    Step chan σ ({ σ with schedLk := some t }.goto t .both)
  | sleepRelease {σ : SleepSys} (t : ℕ) (ha : σ.pc t = .both) :
    Step chan σ ({ σ with lk := none }.goto t .unlocked)
  | sleepState {σ : SleepSys} (t : ℕ) (ha : σ.pc t = .unlocked) :
    Step chan σ ({ σ with s := σ.s.tcbSetState t .sleep }.goto t .marked)
  | sleepChan {σ : SleepSys} (t : ℕ) (ha : σ.pc t = .marked) :
    Step chan σ ({ σ with s := σ.s.tcbSetChan t chan }.goto t .parked)
  | sleepSwitch {σ : SleepSys} (t c : ℕ) (ha : σ.pc t = .parked) :
    Step chan σ ({ σ with s := σ.s.switchNext c }.goto t .switched)
  | sleepUnlock {σ : SleepSys} (t : ℕ) (ha : σ.pc t = .switched) :
    Step chan σ ({ σ with schedLk := none }.goto t .off)
  -- the thread goes on when it has been switched to
  | resume {σ : SleepSys} (t : ℕ) (ha : σ.pc t = .off) (hrun : σ.s.state t = .run)
    (hlk : σ.schedLk = none) : Step chan σ ({ σ with schedLk := some t }.goto t .back)
  | resumeChan {σ : SleepSys} (t : ℕ) (ha : σ.pc t = .back) :
    Step chan σ ({ σ with s := σ.s.tcbSetChan t 0 }.goto t .cleared)
  | resumeUnlock {σ : SleepSys} (t : ℕ) (ha : σ.pc t = .cleared) :
    Step chan σ ({ σ with schedLk := none }.goto t .relock)
  | relock {σ : SleepSys} (t : ℕ) (ha : σ.pc t = .relock) (hlk : σ.lk = none) :
    Step chan σ ({ σ with lk := some t }.goto t .locked)
  -- other calls of the scheduler
  | yield {σ : SleepSys} (c : ℕ) (hlk : σ.schedLk = none) :
    Step chan σ { σ with s := σ.s.threadYield c }
  | spawn {σ : SleepSys} (c pid : ℕ) (hlk : σ.schedLk = none) :
    Step chan σ { σ with s := σ.s.threadSpawn c pid }
  | wakeupOther {σ : SleepSys} (c ch : ℕ) (hlk : σ.schedLk = none) :
    Step chan σ { σ with s := σ.s.threadWakeup c ch }
  | sleepOther {σ : SleepSys} (c ch : ℕ) (ha : σ.pc (σ.s.curid c) = .idle) (hlk : σ.schedLk = none)
    (hch : ch ≠ chan) :
    Step chan σ ({ σ with s := σ.s.threadSleep c ch }.goto (σ.s.curid c) .away)
  | resumeOther {σ : SleepSys} (t : ℕ) (ha : σ.pc t = .away) (hrun : σ.s.state t = .run)
    (hlk : σ.schedLk = none) : Step chan σ ({ σ with s := σ.s.tcbSetChan t 0 }.goto t .idle)

/-- What holds between steps. -/
structure Inv (chan : ℕ) (σ : SleepSys) : Prop where
  lk : ∀ a, σ.lk = some a ↔ (σ.pc a).HoldsLk
  schedLk : ∀ a, σ.schedLk = some a ↔ (σ.pc a).HoldsSched
  waits : ∀ t, σ.pc t = .entering ∨ σ.pc t = .both → σ.cond = false
  sleep : ∀ t, σ.s.state t = .sleep → (σ.pc t).MaySleep
  away : ∀ t, σ.pc t = .away → ¬ σ.s.SleepsOn t chan
  pending : ∀ t, 1 ≤ t → t < numIds → σ.cond = true →
    (σ.pc t).GoingToSleep ∨ (σ.pc t = .off ∧ σ.s.SleepsOn t chan) → ∃ w, (σ.pc w).Before t

variable {chan : ℕ} {σ σ' : SleepSys}

theorem inv_start (h : σ.Start chan) : σ.Inv chan := by
  constructor
  · intro a
    rcases h.outside a with ha | ha <;> simp [h.lk, ha, SleepPc.HoldsLk]
  · intro a
    rcases h.outside a with ha | ha <;> simp [h.schedLk, ha, SleepPc.HoldsSched]
  · intro t ht
    rcases h.outside t with ha | ha <;> simp [ha] at ht
  · intro t ht
    rw [(h.asleep t ht).1]
    trivial
  · exact fun t _ hon => (h.asleep t hon.1).2 hon.2
  · intro t _ _ _ ht
    rcases h.outside t with ha | ha <;> simp [ha, SleepPc.GoingToSleep] at ht

/-! ### Holders -/

section Holder

variable {o : Option ℕ} {pc : ℕ → SleepPc} {P : SleepPc → Prop} {a : ℕ} {p q : SleepPc}

theorem holder_keep (h : ∀ b, o = some b ↔ P (pc b)) (ha : pc a = q) (hp : P p ↔ P q) :
    ∀ b, o = some b ↔ P (update pc a p b) := by
  intro b
  by_cases hb : b = a
  · rw [hb, update_self, hp, ← ha]
    exact h a
  · rw [update_of_ne hb]
    exact h b

theorem holder_take (h : ∀ b, o = some b ↔ P (pc b)) (ho : o = none) (hp : P p) :
    ∀ b, some a = some b ↔ P (update pc a p b) := by
  intro b
  by_cases hb : b = a
  · rw [hb, update_self]
    simp [hp]
  · rw [update_of_ne hb, ← h b, ho]
    simp [Ne.symm hb]

theorem holder_give (h : ∀ b, o = some b ↔ P (pc b)) (ha : pc a = q) (hq : P q) (hp : ¬ P p) :
    ∀ b, none = some b ↔ P (update pc a p b) := by
  intro b
  by_cases hb : b = a
  · rw [hb, update_self]
    simp [hp]
  · have ho := (h a).mpr (ha ▸ hq)
    rw [update_of_ne hb, ← h b, ho]
    simp [Ne.symm hb]

end Holder

/-! ### Sleepers -/

/-- No thread but `a` falls asleep. -/
def Wakes (a : ℕ) (s s' : Sched) : Prop :=
  ∀ t, t ≠ a → ∀ ch, s'.SleepsOn t ch → s.SleepsOn t ch

theorem wakes_refl (a : ℕ) (s : Sched) : Wakes a s s := fun _ _ _ h => h

theorem wakes_tcbSetState (a : ℕ) (s : Sched) (v : TState) : Wakes a s (s.tcbSetState a v) := by
  intro t ht ch h
  refine (Sched.sleepsOn_congr ?_ ?_).mp h
  · exact update_of_ne ht ..
  · rfl

theorem wakes_tcbSetChan (a : ℕ) (s : Sched) (ch : ℕ) : Wakes a s (s.tcbSetChan a ch) := by
  intro t ht ch' h
  refine (Sched.sleepsOn_congr ?_ ?_).mp h
  · rfl
  · exact update_of_ne ht ..

variable {ch pid t c a : ℕ} {s : Sched} {p q : SleepPc}

/-- Waking up one more thread. -/
theorem sleepsOn_of_ready {v : TState} (hv : v ≠ .sleep)
    (h : (s.tcbSetState pid v).SleepsOn t ch) : s.SleepsOn t ch := by
  by_cases ht : t = pid
  · have hst : (s.tcbSetState pid v).state t = v := by rw [ht]; exact update_self ..
    exact absurd (hst ▸ h.1) hv
  · exact wakes_tcbSetState pid s v t ht ch h

theorem sleepsOn_of_enqueue (h : (s.tqueueEnqueue c numIds pid).SleepsOn t ch) : s.SleepsOn t ch :=
  (Sched.sleepsOn_congr (by rw [Sched.tqueueEnqueue_state])
    (by rw [Sched.tqueueEnqueue_channel])).mp h

theorem sleepsOn_of_switchNext (h : (s.switchNext c).SleepsOn t ch) : s.SleepsOn t ch := by
  have hrun : (s.tcbSetState (s.tqueueDequeue c numIds).1 .run).SleepsOn t ch :=
    (Sched.sleepsOn_congr (by rw [Sched.switchNext_state]; rfl)
      (by rw [Sched.switchNext_channel]; rfl)).mp h
  exact sleepsOn_of_ready (by simp) hrun

theorem sleepsOn_of_wakeOne {ch' : ℕ}
    (h : (Sched.wakeOne c ch' s pid).SleepsOn t ch) : s.SleepsOn t ch := by
  by_cases hs : t ≠ pid ∨ ¬ s.SleepsOn t ch'
  · obtain ⟨hst, hch⟩ := Sched.wakeOne_other c pid hs
    exact (Sched.sleepsOn_congr hst hch).mp h
  · simp only [ne_eq, not_or, not_not] at hs
    obtain ⟨rfl, hs⟩ := hs
    have hst := (Sched.wakeOne_self hs c).1
    exact absurd (hst.symm.trans h.1) (by simp)

theorem sleepsOn_of_threadWakeup {ch' : ℕ}
    (h : (s.threadWakeup c ch').SleepsOn t ch) : s.SleepsOn t ch := by
  unfold Sched.threadWakeup at h
  generalize List.range' 1 (numIds - 1) = l at h
  induction l generalizing s with
  | nil => exact h
  | cons pid l ih => exact sleepsOn_of_wakeOne (ih h)

theorem sleepsOn_of_threadYield (h : (s.threadYield c).SleepsOn t ch) : s.SleepsOn t ch :=
  sleepsOn_of_ready (by simp) (sleepsOn_of_enqueue (sleepsOn_of_switchNext h))

theorem sleepsOn_of_threadSpawn (h : (s.threadSpawn c pid).SleepsOn t ch) : s.SleepsOn t ch :=
  sleepsOn_of_ready (by simp) (sleepsOn_of_enqueue h)

theorem wakes_threadSleep (s : Sched) (c ch : ℕ) : Wakes (s.curid c) s (s.threadSleep c ch) :=
  fun t ht ch' h => wakes_tcbSetState _ s .sleep t ht ch'
    (wakes_tcbSetChan _ _ ch t ht ch' (sleepsOn_of_switchNext h))

/-! ### Steps -/

/-- Agent `a` goes on at `p` without touching the condition. -/
structure Moves (σ : SleepSys) (a : ℕ) (p : SleepPc) (σ' : SleepSys) : Prop where
  pc : σ'.pc = update σ.pc a p
  cond : σ'.cond = σ.cond
  lk : ∀ b, σ'.lk = some b ↔ (update σ.pc a p b).HoldsLk
  sched : ∀ b, σ'.schedLk = some b ↔ (update σ.pc a p b).HoldsSched

/-- A move that takes and gives no lock. -/
theorem Inv.keeps (h : σ.Inv chan) (p : SleepPc) (ha : σ.pc a = q) (hlk : p.HoldsLk ↔ q.HoldsLk)
    (hsched : p.HoldsSched ↔ q.HoldsSched) (s' : Sched) :
    Moves σ a p { σ with s := s', pc := update σ.pc a p } :=
  ⟨rfl, rfl, holder_keep h.lk ha hlk, holder_keep h.schedLk ha hsched⟩

theorem Inv.move (h : σ.Inv chan) (hm : Moves σ a p σ') (hwakes : Wakes a σ.s σ'.s)
    (hwaits : p = .entering ∨ p = .both → σ.cond = false)
    (hsleep : σ'.s.state a = .sleep → p.MaySleep)
    (haway : p = .away → ¬ σ'.s.SleepsOn a chan)
    (hgo : p.GoingToSleep ∨ (p = .off ∧ σ'.s.SleepsOn a chan) →
      σ.cond = false ∨ (σ.pc a).GoingToSleep)
    (hbefore : ∀ t, 1 ≤ t → t < numIds → t ≠ a → (σ.pc t).GoingToSleep ∨
      (σ.pc t = .off ∧ σ'.s.SleepsOn t chan) → (σ.pc a).Before t → p.Before t) : σ'.Inv chan := by
  have hself : σ'.pc a = p := by rw [hm.pc, update_self]
  have hother : ∀ t, t ≠ a → σ'.pc t = σ.pc t := fun t ht => by rw [hm.pc, update_of_ne ht]
  constructor
  · rw [hm.pc]
    exact hm.lk
  · rw [hm.pc]
    exact hm.sched
  · intro t ht
    rw [hm.cond]
    by_cases hta : t = a
    · rw [hta, hself] at ht
      exact hwaits ht
    · rw [hother t hta] at ht
      exact h.waits t ht
  · intro t ht
    by_cases hta : t = a
    · rw [hta, hself]
      exact hsleep (hta ▸ ht)
    · rw [hother t hta]
      exact h.sleep t (hwakes t hta _ ⟨ht, rfl⟩).1
  · intro t ht
    by_cases hta : t = a
    · rw [hta, hself] at ht
      exact hta ▸ haway ht
    · rw [hother t hta] at ht
      exact fun hs => h.away t ht (hwakes t hta _ hs)
  · intro t ht ht' hc hpend
    rw [hm.cond] at hc
    -- the waker that was there before has not moved, or has not passed the thread
    by_cases hta : t = a
    · rw [hta, hself] at hpend
      have hgoing := (hgo hpend).resolve_left (by simp [hc])
      obtain ⟨w, hw⟩ := h.pending t ht ht' hc (.inl (hta ▸ hgoing))
      refine ⟨w, ?_⟩
      rw [hother w fun hwa => ?_]
      · exact hw
      · rw [hwa] at hw
        cases hp : σ.pc a <;> simp [hp, SleepPc.GoingToSleep, SleepPc.Before] at hgoing hw
    · rw [hother t hta] at hpend
      obtain ⟨w, hw⟩ := h.pending t ht ht' hc (hpend.imp_right fun hp => ⟨hp.1, hwakes t hta _ hp.2⟩)
      by_cases hwa : w = a
      · exact ⟨a, by rw [hself]; exact hbefore t ht ht' hta hpend (hwa ▸ hw)⟩
      · exact ⟨w, by rw [hother w hwa]; exact hw⟩

/-- An agent that is not waking anybody up goes on outside of the two loops. -/
theorem Inv.moveQuiet (h : σ.Inv chan) (hm : Moves σ a p σ') (ha : σ.pc a = q) (hp : p.Quiet)
    (hwakes : Wakes a σ.s σ'.s) (hawake : σ'.s.state a ≠ .sleep) (hbefore : ∀ t, ¬ q.Before t) :
    σ'.Inv chan := by
  refine h.move hm hwakes ?_ (fun hs => absurd hs hawake) ?_ ?_
    (fun t _ _ _ _ hb => absurd (ha ▸ hb) (hbefore t))
  all_goals cases p <;> simp [SleepPc.Quiet, SleepPc.GoingToSleep] at hp ⊢

/-- A thread goes on in `thread_sleep` after it has released `lk`. -/
theorem Inv.moveSleeper (h : σ.Inv chan) (hm : Moves σ a p σ') (hp : p.MaySleep)
    (hne : p ≠ .away) (hwakes : Wakes a σ.s σ'.s) (hgo : (σ.pc a).GoingToSleep) : σ'.Inv chan := by
  refine h.move hm hwakes ?_ (fun _ => hp) (fun he => absurd he hne) (fun _ => .inr hgo)
    fun t _ _ _ _ hb => ?_
  · cases p <;> simp [SleepPc.MaySleep] at hp ⊢
  · cases ha : σ.pc a <;> simp [ha, SleepPc.GoingToSleep, SleepPc.Before] at hgo hb

/-- A waker goes on; the threads it leaves behind are awake. -/
theorem Inv.moveWaker (h : σ.Inv chan) (hm : Moves σ a p σ') (hp : p.Waking ∨ p = .locked)
    (hs : ∀ t ch, σ'.s.SleepsOn t ch → σ.s.SleepsOn t ch) (hmay : ¬ (σ.pc a).MaySleep)
    (hbefore : ∀ t, 1 ≤ t → t < numIds → t ≠ a → (σ.pc t).GoingToSleep ∨
      (σ.pc t = .off ∧ σ'.s.SleepsOn t chan) → (σ.pc a).Before t → p.Before t) : σ'.Inv chan := by
  refine h.move hm (fun t _ => hs t) ?_ ?_ ?_ ?_ hbefore
  · cases p <;> simp [SleepPc.Waking] at hp ⊢
  · exact fun hst => absurd (h.sleep a (hs a _ ⟨hst, rfl⟩).1) hmay
  · cases p <;> simp [SleepPc.Waking] at hp ⊢
  · cases p <;> simp [SleepPc.Waking, SleepPc.GoingToSleep] at hp ⊢

/-- A call of the scheduler that puts nobody to sleep. -/
theorem Inv.other (h : σ.Inv chan) {s' : Sched}
    (hs : ∀ t ch, s'.SleepsOn t ch → σ.s.SleepsOn t ch) : Inv chan { σ with s := s' } :=
  ⟨h.lk, h.schedLk, h.waits, fun t ht => h.sleep t (hs t _ ⟨ht, rfl⟩).1,
    fun t ht hon => h.away t ht (hs t _ hon), fun t ht ht' hc hpend =>
      h.pending t ht ht' hc (hpend.imp_right fun hp => ⟨hp.1, hs t _ hp.2⟩)⟩

/-- The condition becomes true: its maker is in front of everybody. -/
theorem Inv.makeTrue (h : σ.Inv chan) (ha : σ.pc a = .locked) :
    Inv chan ({ σ with cond := true }.goto a .waking) := by
  have hself : ({ σ with cond := true }.goto a .waking).pc a = .waking := update_self ..
  have hother : ∀ t, t ≠ a → ({ σ with cond := true }.goto a .waking).pc t = σ.pc t :=
    fun t ht => update_of_ne ht ..
  -- nobody else holds `lk`
  have hout : ∀ t, t ≠ a → ¬ (σ.pc t).HoldsLk := by
    intro t ht hp
    have ho := (h.lk a).mpr (by rw [ha]; trivial)
    rw [(h.lk t).mpr hp] at ho
    exact ht (Option.some.inj ho)
  constructor
  · exact holder_keep h.lk ha .rfl
  · exact holder_keep h.schedLk ha .rfl
  · intro t ht
    by_cases hta : t = a
    · rw [hta, hself] at ht
      simp at ht
    · rw [hother t hta] at ht
      refine absurd ?_ (hout t hta)
      rcases ht with ht | ht <;> rw [ht] <;> trivial
  · intro t ht
    by_cases hta : t = a
    · have hmay := h.sleep t ht
      rw [hta, ha] at hmay
      exact absurd hmay id
    · rw [hother t hta]
      exact h.sleep t ht
  · intro t ht
    by_cases hta : t = a
    · rw [hta, hself] at ht
      simp at ht
    · rw [hother t hta] at ht
      exact h.away t ht
  · exact fun t _ _ _ _ => ⟨a, by rw [hself]; trivial⟩

theorem inv_of_step (h : σ.Inv chan) (hstep : Step chan σ σ') : σ'.Inv chan := by
  -- an agent that is not asleep in `thread_sleep` has another state
  have hawake : ∀ {a : ℕ} {q : SleepPc}, σ.pc a = q → ¬ q.MaySleep → σ.s.state a ≠ .sleep :=
    fun ha hq hs => hq (ha ▸ h.sleep _ hs)
  cases hstep with
  | acquire a ha hlk =>
    exact h.moveQuiet ⟨rfl, rfl, holder_take h.lk hlk trivial, holder_keep h.schedLk ha .rfl⟩
      ha trivial (wakes_refl a σ.s) (hawake ha id) fun _ => id
  | release a ha =>
    exact h.moveQuiet ⟨rfl, rfl, holder_give h.lk ha trivial id, holder_keep h.schedLk ha .rfl⟩
      ha trivial (wakes_refl a σ.s) (hawake ha id) fun _ => id
  | makeFalse a ha =>
    exact ⟨h.lk, h.schedLk, fun _ _ => rfl, h.sleep, h.away, fun _ _ _ hc => by simp at hc⟩
  | makeTrue a ha => exact h.makeTrue ha
  | wakeupLock a ha hlk =>
    exact h.moveWaker ⟨rfl, rfl, holder_keep h.lk ha .rfl, holder_take h.schedLk hlk trivial⟩
      (.inl trivial) (fun _ _ => id) (by rw [ha]; exact id) fun t ht _ _ _ _ => ht
  | wakeupOne a c pid ha hpid =>
    refine h.moveWaker (h.keeps (.loop (pid + 1)) ha .rfl .rfl _) (.inl trivial)
      (fun _ _ => sleepsOn_of_wakeOne) (by rw [ha]; exact id) fun t ht ht' hta hpend hb => ?_
    rw [ha] at hb
    refine Nat.lt_of_le_of_ne hb fun he => ?_
    -- thread `pid` itself: it does not hold `sched_lk`, so it sleeps, and is woken up now
    rcases hpend with hgo | ⟨-, hon⟩
    · have ho := (h.schedLk a).mpr (by rw [ha]; trivial)
      rw [(h.schedLk t).mpr (by cases hp : σ.pc t <;>
        simp [hp, SleepPc.GoingToSleep, SleepPc.HoldsSched] at hgo ⊢)] at ho
      exact hta (Option.some.inj ho)
    · have hst := (Sched.wakeOne_self (sleepsOn_of_wakeOne hon) c).1
      rw [he] at hon
      exact absurd (hst.symm.trans hon.1) (by simp)
  | wakeupUnlock a ha =>
    refine h.moveWaker ⟨rfl, rfl, holder_keep h.lk ha .rfl, holder_give h.schedLk ha trivial id⟩
      (.inr rfl) (fun _ _ => id) (by rw [ha]; exact id) fun t _ ht' _ _ hb => ?_
    rw [ha] at hb
    exact absurd hb (Nat.not_le.mpr ht')
  | sleep t ht ha hc =>
    refine h.move (h.keeps .entering ha .rfl .rfl _) (wakes_refl t σ.s) (fun _ => hc) ?_ (by simp)
      (fun _ => .inl hc) ?_
    · exact fun hs => absurd hs (hawake ha id)
    · simp [ha, SleepPc.Before]
  | sleepLock t ha hlk =>
    refine h.move ⟨rfl, rfl, holder_keep h.lk ha .rfl, holder_take h.schedLk hlk trivial⟩
      (wakes_refl t σ.s) (fun _ => h.waits t (.inl ha)) ?_ (by simp)
      (fun _ => .inl (h.waits t (.inl ha))) ?_
    · exact fun hs => absurd hs (hawake ha id)
    · simp [ha, SleepPc.Before]
  | sleepRelease t ha =>
    refine h.move ⟨rfl, rfl, holder_give h.lk ha trivial id, holder_keep h.schedLk ha .rfl⟩
      (wakes_refl t σ.s) (by simp) ?_ (by simp)
      (fun _ => .inl (h.waits t (.inr ha))) ?_
    · exact fun hs => absurd hs (hawake ha id)
    · simp [ha, SleepPc.Before]
  | sleepState t ha =>
    exact h.moveSleeper (h.keeps .marked ha .rfl .rfl _) trivial (by simp)
      (wakes_tcbSetState t σ.s .sleep) (by rw [ha]; trivial)
  | sleepChan t ha =>
    exact h.moveSleeper (h.keeps .parked ha .rfl .rfl _) trivial (by simp)
      (wakes_tcbSetChan t σ.s chan) (by rw [ha]; trivial)
  | sleepSwitch t c ha =>
    exact h.moveSleeper (h.keeps .switched ha .rfl .rfl _) trivial (by simp)
      (fun _ _ _ => sleepsOn_of_switchNext) (by rw [ha]; trivial)
  | sleepUnlock t ha =>
    exact h.moveSleeper ⟨rfl, rfl, holder_keep h.lk ha .rfl, holder_give h.schedLk ha trivial id⟩
      trivial (by simp) (wakes_refl t σ.s) (by rw [ha]; trivial)
  | resume t ha hrun hlk =>
    exact h.moveQuiet ⟨rfl, rfl, holder_keep h.lk ha .rfl, holder_take h.schedLk hlk trivial⟩
      ha trivial (wakes_refl t σ.s) (by rw [goto, hrun]; simp) fun _ => id
  | resumeChan t ha =>
    exact h.moveQuiet (h.keeps .cleared ha .rfl .rfl _) ha trivial (wakes_tcbSetChan t σ.s 0)
      (hawake ha id) fun _ => id
  | resumeUnlock t ha =>
    exact h.moveQuiet ⟨rfl, rfl, holder_keep h.lk ha .rfl, holder_give h.schedLk ha trivial id⟩
      ha trivial (wakes_refl t σ.s) (hawake ha id) fun _ => id
  | relock t ha hlk =>
    exact h.moveQuiet ⟨rfl, rfl, holder_take h.lk hlk trivial, holder_keep h.schedLk ha .rfl⟩
      ha trivial (wakes_refl t σ.s) (hawake ha id) fun _ => id
  | yield c hlk => exact h.other fun _ _ => sleepsOn_of_threadYield
  | spawn c pid hlk => exact h.other fun _ _ => sleepsOn_of_threadSpawn
  | wakeupOther c ch hlk => exact h.other fun _ _ => sleepsOn_of_threadWakeup
  | sleepOther c ch ha hlk hch =>
    refine h.move (h.keeps .away ha .rfl .rfl _) (wakes_threadSleep σ.s c ch) (by simp)
      (fun _ => trivial) (fun _ hon => hch ?_) (by simp [SleepPc.GoingToSleep])
      (by simp [ha, SleepPc.Before])
    have hon' := sleepsOn_of_switchNext hon
    exact (update_self ..).symm.trans hon'.2
  | resumeOther t ha hrun hlk =>
    exact h.moveQuiet (h.keeps .idle ha .rfl .rfl _) ha trivial (wakes_tcbSetChan t σ.s 0)
      (fun hs => by rw [show σ.s.state t = .sleep from hs] at hrun; simp at hrun) fun _ => id

theorem inv_of_run (hstart : σ.Start chan) (hrun : ReflTransGen (Step chan) σ σ') :
    σ'.Inv chan := by
  induction hrun with
  | refl => exact inv_start hstart
  | tail _ hstep ih => exact inv_of_step ih hstep

/-- **No lost wake-up.**  In no reachable state is a thread asleep on the channel while
the condition is true, `lk` is free and no wake-up is in progress. -/
theorem no_lost_wakeup (hstart : σ.Start chan) (hrun : ReflTransGen (Step chan) σ σ') {t : ℕ}
    (ht : 1 ≤ t) (ht' : t < numIds) :
    ¬ (σ'.s.SleepsOn t chan ∧ σ'.cond = true ∧ σ'.lk = none ∧ ∀ w, ¬ (σ'.pc w).Waking) := by
  rintro ⟨hon, hc, -, hno⟩
  have h := inv_of_run hstart hrun
  have hpend : (σ'.pc t).GoingToSleep ∨ (σ'.pc t = .off ∧ σ'.s.SleepsOn t chan) := by
    have hmay := h.sleep t hon.1
    have haway := h.away t
    cases hp : σ'.pc t <;> simp_all [SleepPc.MaySleep, SleepPc.GoingToSleep]
  obtain ⟨w, hw⟩ := h.pending t ht ht' hc hpend
  exact hno w (by cases hp : σ'.pc w <;> simp [hp, SleepPc.Before, SleepPc.Waking] at hw ⊢)

/-- After `kern_main`, the first process goes to sleep and stays there. -/
theorem no_lost_wakeup_asleep : ∃ σ σ', σ.Start 7 ∧ ReflTransGen (Step 7) σ σ' ∧
    σ'.s.SleepsOn 2 7 ∧ σ'.lk = none ∧
    ¬ (σ'.s.SleepsOn 2 7 ∧ σ'.cond = true ∧ σ'.lk = none ∧ ∀ w, ¬ (σ'.pc w).Waking) := by
  let σ : SleepSys := ⟨Sched.kernMain 1 2, none, none, false, fun _ => .idle⟩
  have hstart : σ.Start 7 := ⟨rfl, rfl, fun _ => .inl rfl, fun t ht =>
    absurd ht (Sched.kernMain_awake 1 2 t)⟩
  have h₁ := (ReflTransGen.refl (r := Step 7) (a := σ)).tail (.acquire 2 rfl rfl)
  have h₂ := h₁.tail (.sleep 2 (by decide) rfl rfl)
  have h₃ := h₂.tail (.sleepLock 2 rfl rfl)
  have h₄ := h₃.tail (.sleepRelease 2 rfl)
  have h₅ := h₄.tail (.sleepState 2 rfl)
  have h₆ := h₅.tail (.sleepChan 2 rfl)
  have h₇ := h₆.tail (.sleepSwitch 2 0 rfl)
  have h₈ := h₇.tail (.sleepUnlock 2 rfl)
  exact ⟨σ, _, hstart, h₈, by decide +kernel, rfl, no_lost_wakeup hstart h₈ (by decide) (by decide)⟩

end SleepSys

end Mcertikos
