/-
The scheduler (`PThread.c` and `kern_main`).

Every CPU has its own ready queue, a doubly linked list through the `prev` and
`next` fields of the thread control blocks with `NUM_IDS` as the null index.
The functions take the index of the CPU they run on; between two points where
`sched_lk` is free a call is one atomic step.

* `Queues` — the ready queues of all CPUs; its edits are those of the thread queues;
* `Inv` — every thread is where its state says it is; `Inv.switchNext` covers the
  second half of `thread_yield` and `thread_sleep`, `Inv.wakeOne` one round of
  `thread_wakeup`;
* `inv_of_run` — the invariant holds in every reachable state;
* `sched_consistent` — its reading in terms of the tables.

Design notes: `kern_main` switches to its first process on CPU 0 only; the other
CPUs are left with thread 0 as their current thread.  Thread 0 has one control
block, so it must not be put into the queues of two CPUs: the runs are those in
which only CPU `z` takes thread 0 off.  `sched_parallel_zero` is what happens
otherwise.
-/
import Mcertikos.Thread.TQueue

namespace Mcertikos

open List Relation Function Ring

namespace Sched

/-! ### Threads -/

/-- `thread_init`, after the loops of `tcb_init` and `tqueue_init`. -/
def threadInit : Sched where
  state := update (fun _ => .dead) 0 .run
  prev := fun _ => numIds
  next := fun _ => numIds
  channel := fun _ => 0
  head := fun _ _ => numIds
  tail := fun _ _ => numIds
  curid := fun _ => 0

/-- `thread_spawn`, with the id `kctx_new` returned. -/
def threadSpawn (s : Sched) (c pid : ℕ) : Sched :=
  (s.tcbSetState pid .ready).tqueueEnqueue c numIds pid

/-- The end of `thread_yield` and `thread_sleep`: the next thread of the ready
queue becomes the current one. -/
def switchNext (s : Sched) (c : ℕ) : Sched :=
  let d := s.tqueueDequeue c numIds
  (d.2.tcbSetState d.1 .run).setCurid c d.1

def threadYield (s : Sched) (c : ℕ) : Sched :=
  ((s.tcbSetState (s.curid c) .ready).tqueueEnqueue c numIds (s.curid c)).switchNext c

/-- `thread_sleep` up to the context switch. -/
def threadSleep (s : Sched) (c chan : ℕ) : Sched :=
  ((s.tcbSetState (s.curid c) .sleep).tcbSetChan (s.curid c) chan).switchNext c

/-- `thread_sleep` after the context switch back. -/
def threadSleepReturn (s : Sched) (c : ℕ) : Sched := s.tcbSetChan (s.curid c) 0

/-- One round of the loop of `thread_wakeup`. -/
def wakeOne (c chan : ℕ) (s : Sched) (pid : ℕ) : Sched :=
  if s.channel pid = chan ∧ s.state pid = .sleep then
    ((s.tcbSetState pid .ready).tcbSetChan pid 0).tqueueEnqueue c numIds pid
  else s

@[irreducible] def threadWakeup (s : Sched) (c chan : ℕ) : Sched :=
  (range' 1 (numIds - 1)).foldl (wakeOne c chan) s

/-- `kern_main`, with the ids of the two processes it creates; the second is
taken off the ready queue and started. -/
def kernMain (idle ding : ℕ) : Sched :=
  let s := (threadInit.threadSpawn 0 idle).threadSpawn 0 ding
  ((s.tqueueRemove 0 numIds ding).tcbSetState ding .run).setCurid 0 ding

/-! ### Ready queues as lists -/

/-- The ready queue of CPU `c`, from its head along `next`. -/
def readyQueue (s : Sched) (c : ℕ) : List ℕ :=
  walk s.next numIds numIds (s.head c numIds)

/-- The ready queues of all CPUs. -/
abbrev Queues (s : Sched) (q : ℕ → List ℕ) : Prop := s.Lists (fun c => (c, numIds)) q

variable {s s' : Sched} {q : ℕ → List ℕ} {c t : ℕ}

theorem ready_injective : Injective fun c : ℕ => (c, numIds) :=
  fun _ _ h => congrArg Prod.fst h

theorem Queues.readyQueue (h : Queues s q) (c : ℕ) : s.readyQueue c = q c := h.queue c

theorem Queues.enqueue (h : Queues s q) (ht : t < numIds) (hq : ∀ d, t ∉ q d) (c : ℕ) :
    Queues (s.tqueueEnqueue c numIds t) (update q c (q c ++ [t])) :=
  Lists.enqueue h ready_injective ht hq c

variable {l : List ℕ} {chan pid : ℕ}

theorem Queues.dequeue (h : Queues s q) (hq : q c = t :: l) :
    (s.tqueueDequeue c numIds).1 = t ∧ Queues (s.tqueueDequeue c numIds).2 (update q c l) :=
  Lists.dequeue h ready_injective hq

theorem Queues.remove (h : Queues s q) {l1 l2 : List ℕ} (hq : q c = l1 ++ t :: l2) :
    Queues (s.tqueueRemove c numIds t) (update q c (l1 ++ l2)) :=
  Lists.remove h ready_injective hq

/-! ### What the queue operations leave alone -/

@[simp] theorem tqueueEnqueue_state (s : Sched) (c chid pid : ℕ) :
    (s.tqueueEnqueue c chid pid).state = s.state := by
  by_cases h : s.tail c chid = numIds <;> simp only [tqueueEnqueue, h, if_true, if_false] <;> rfl

@[simp] theorem tqueueEnqueue_channel (s : Sched) (c chid pid : ℕ) :
    (s.tqueueEnqueue c chid pid).channel = s.channel := by
  by_cases h : s.tail c chid = numIds <;> simp only [tqueueEnqueue, h, if_true, if_false] <;> rfl

@[simp] theorem tqueueEnqueue_curid (s : Sched) (c chid pid : ℕ) :
    (s.tqueueEnqueue c chid pid).curid = s.curid := by
  by_cases h : s.tail c chid = numIds <;> simp only [tqueueEnqueue, h, if_true, if_false] <;> rfl

/-- The fields outside of the queues. -/
def rest (s : Sched) : (ℕ → TState) × (ℕ → ℕ) × (ℕ → ℕ) := (s.state, s.channel, s.curid)

theorem tqueueDequeue_rest (s : Sched) (c chid : ℕ) : (s.tqueueDequeue c chid).2.rest = s.rest := by
  unfold tqueueDequeue
  by_cases hh : s.head c chid = numIds <;> by_cases hn : s.next (s.head c chid) = numIds <;>
    simp only [hh, hn, ne_eq, not_true_eq_false, not_false_eq_true, if_true, if_false] <;> rfl

theorem switchNext_state (s : Sched) (c : ℕ) :
    (s.switchNext c).state = update s.state (s.tqueueDequeue c numIds).1 .run := by
  have hrest : (s.tqueueDequeue c numIds).2.state = s.state :=
    congrArg Prod.fst (tqueueDequeue_rest s c numIds)
  rw [← hrest]
  rfl

theorem switchNext_channel (s : Sched) (c : ℕ) : (s.switchNext c).channel = s.channel :=
  congrArg (fun r => r.2.1) (tqueueDequeue_rest s c numIds)

theorem switchNext_curid (s : Sched) (c : ℕ) :
    (s.switchNext c).curid = update s.curid c (s.tqueueDequeue c numIds).1 := by
  have hrest : (s.tqueueDequeue c numIds).2.curid = s.curid :=
    congrArg (fun r => r.2.2) (tqueueDequeue_rest s c numIds)
  rw [← hrest]
  rfl

theorem tqueueRemove_rest (s : Sched) (c chid pid : ℕ) :
    (s.tqueueRemove c chid pid).rest = s.rest := by
  unfold tqueueRemove
  by_cases hp : s.prev pid = numIds <;> by_cases hn : s.next pid = numIds <;>
    by_cases hpn : s.prev pid = s.next pid <;>
    simp only [hp, hn, hpn, ne_eq, not_true_eq_false, not_false_eq_true, if_true, if_false] <;> rfl

/-! ### The invariant -/

/-- Every thread is where its state says it is.  Thread 0 may be in the queue of
CPU `z` only.  The current thread of a CPU counts if the CPU is `live`; it does not
while the CPU is on its way to the next thread. -/
structure Inv (z : ℕ) (live : ℕ → Prop) (s : Sched) (q : ℕ → List ℕ) : Prop where
  queues : Queues s q
  cpus : ∀ c, numCpus ≤ c → q c = [] ∧ s.curid c = 0
  ready : ∀ t, 1 ≤ t → t < numIds → (s.state t = .ready ↔ ∃ c, t ∈ q c)
  current : ∀ c, live c → s.curid c < numIds
  run : ∀ t, 1 ≤ t → t < numIds → (s.state t = .run ↔ ∃ c, live c ∧ s.curid c = t)
  alone : ∀ c d, live c → live d → s.curid c = s.curid d → s.curid c ≠ 0 → c = d
  zero : ∀ c, 0 ∈ q c → c = z ∧ (live z → s.curid z ≠ 0)

variable {z : ℕ} {live : ℕ → Prop}

theorem Inv.tcbSetChan (h : Inv z live s q) (pid chan : ℕ) : Inv z live (s.tcbSetChan pid chan) q :=
  ⟨⟨h.queues.ring, h.queues.ids, h.queues.apart⟩, h.cpus, h.ready, h.current, h.run, h.alone,
    h.zero⟩

/-- A thread that is neither ready nor running becomes ready. -/
theorem Inv.enqueue (h : Inv z live s q) (hc : c < numCpus) (ht : t < numIds)
    (hst : 1 ≤ t → s.state t ≠ .ready ∧ s.state t ≠ .run)
    (h0 : t = 0 → c = z ∧ ¬ live z ∧ ∀ d, 0 ∉ q d) :
    Inv z live ((s.tcbSetState t .ready).tqueueEnqueue c numIds t) (update q c (q c ++ [t])) := by
  have hq : ∀ d, t ∉ q d := by
    intro d hd
    rcases Nat.eq_zero_or_pos t with he | hpos
    · exact (h0 he).2.2 d (he ▸ hd)
    · exact (hst hpos).1 ((h.ready t hpos ht).mpr ⟨d, hd⟩)
  have hqueues : Queues (s.tcbSetState t .ready) q :=
    ⟨h.queues.ring, h.queues.ids, h.queues.apart⟩
  have hmem : ∀ a d, a ∈ update q c (q c ++ [t]) d ↔ a ∈ q d ∨ (d = c ∧ a = t) := by
    intro a d
    by_cases hd : d = c
    · rw [hd, update_self, mem_append, mem_singleton]
      simp
    · rw [update_of_ne hd]
      simp [hd]
  have hstate : ∀ a, a ≠ t → ((s.tcbSetState t .ready).tqueueEnqueue c numIds t).state a
      = s.state a := by
    intro a ha
    rw [tqueueEnqueue_state]
    exact update_of_ne ha ..
  have hself : ((s.tcbSetState t .ready).tqueueEnqueue c numIds t).state t = .ready := by
    rw [tqueueEnqueue_state]
    exact update_self ..
  have hcur : ((s.tcbSetState t .ready).tqueueEnqueue c numIds t).curid = s.curid :=
    tqueueEnqueue_curid ..
  constructor
  · exact hqueues.enqueue ht hq c
  · intro d hd
    rw [hcur, update_of_ne (by omega)]
    exact h.cpus d hd
  · intro a ha ha'
    by_cases hat : a = t
    · rw [hat, hself]
      exact ⟨fun _ => ⟨c, (hmem t c).mpr (.inr ⟨rfl, rfl⟩)⟩, fun _ => rfl⟩
    · rw [hstate a hat, h.ready a ha ha']
      simp only [hmem, hat, and_false, or_false]
  · rw [hcur]
    exact h.current
  · intro a ha ha'
    rw [hcur]
    by_cases hat : a = t
    · have hno := mt (h.run a ha ha').mpr (hat ▸ (hst (hat ▸ ha)).2)
      rw [hat, hself]
      rw [hat] at hno
      simp [hno]
    · rw [hstate a hat]
      exact h.run a ha ha'
  · rw [hcur]
    exact h.alone
  · intro d hd
    rw [hcur]
    rcases (hmem 0 d).mp hd with hd | ⟨rfl, he⟩
    · exact h.zero d hd
    · obtain ⟨hz, hl, -⟩ := h0 he.symm
      exact ⟨hz, fun hlive => absurd hlive hl⟩

/-- The current thread of a CPU leaves it. -/
theorem Inv.leave (h : Inv z (fun _ => True) s q) (c : ℕ) :
    Inv z (· ≠ c) (s.tcbSetState (s.curid c) .sleep) q := by
  have hstate : ∀ a, (s.tcbSetState (s.curid c) .sleep).state a
      = if a = s.curid c then .sleep else s.state a := fun a => update_apply ..
  -- a thread in a queue is not the current one
  have hoff : 1 ≤ s.curid c → s.state (s.curid c) = .run := fun hpos =>
    (h.run _ hpos (h.current c trivial)).mpr ⟨c, trivial, rfl⟩
  constructor
  · exact ⟨h.queues.ring, h.queues.ids, h.queues.apart⟩
  · exact h.cpus
  · intro a ha ha'
    rw [hstate, ← h.ready a ha ha']
    by_cases he : a = s.curid c
    · rw [if_pos he, he, hoff (he ▸ ha)]
      simp
    · rw [if_neg he]
  · exact fun d _ => h.current d trivial
  · intro a ha ha'
    have hcurid : (s.tcbSetState (s.curid c) .sleep).curid = s.curid := rfl
    rw [hstate, hcurid]
    by_cases he : a = s.curid c
    · rw [if_pos he]
      refine ⟨fun hf => by simp at hf, fun ⟨d, hd, hda⟩ => ?_⟩
      exact absurd (h.alone d c trivial trivial (hda.trans he) (by omega)) hd
    · rw [if_neg he, h.run a ha ha']
      refine ⟨fun ⟨d, _, hda⟩ => ⟨d, fun hdc => he (hdc ▸ hda.symm), hda⟩, fun ⟨d, _, hda⟩ =>
        ⟨d, trivial, hda⟩⟩
  · exact fun d e _ _ => h.alone d e trivial trivial
  · exact fun d hd => ⟨(h.zero d hd).1, fun _ => (h.zero d hd).2 trivial⟩

/-- A thread is taken off the queue of a CPU and becomes its current one. -/
theorem Inv.dispatch (h : Inv z (· ≠ c) s q) (hc : c < numCpus) {l1 l2 : List ℕ}
    (hq : q c = l1 ++ t :: l2) (hqueues : Queues s' (update q c (l1 ++ l2)))
    (hst : s'.state = update s.state t .run)
    (hcid : s'.curid = update s.curid c t) :
    Inv z (fun _ => True) s' (update q c (l1 ++ l2)) := by
  have hm : t ∈ q c := by rw [hq]; simp
  have ht : t < numIds := h.queues.ids c t hm
  have hin : ∀ d, t ∈ q d → d = c := fun d hd => h.queues.apart d c t hd hm
  have hnd := (nodup_cons.mp (h.queues.ring c).nodup).2
  rw [hq, nodup_middle, nodup_cons] at hnd
  have hstate : ∀ a, s'.state a = if a = t then .run else s.state a := fun a => by
    rw [hst, update_apply]
  have hcurid : ∀ d, s'.curid d = if d = c then t else s.curid d := fun d => by
    rw [hcid, update_apply]
  have hmem : ∀ a d, a ∈ update q c (l1 ++ l2) d ↔ a ∈ q d ∧ a ≠ t := by
    intro a d
    by_cases hd : d = c
    · rw [hd, update_self, hq, mem_append, mem_append, mem_cons]
      refine ⟨fun ha => ⟨ha.imp id .inr, fun he => hnd.1 ?_⟩, fun ⟨ha, hne⟩ => ?_⟩
      · rw [← he, mem_append]
        exact ha
      · exact ha.imp id fun ha => ha.resolve_left hne
    · rw [update_of_ne hd]
      exact ⟨fun ha => ⟨ha, fun he => hd (hin d (he ▸ ha))⟩, fun ha => ha.1⟩
  -- no other CPU runs the thread
  have hother : 1 ≤ t → ∀ d, d ≠ c → s.curid d ≠ t := by
    intro hpos d hd he
    have hready := (h.ready t hpos ht).mpr ⟨c, hm⟩
    rw [(h.run t hpos ht).mpr ⟨d, hd, he⟩] at hready
    simp at hready
  constructor
  · exact hqueues
  · intro d hd
    have hdc : d ≠ c := by omega
    rw [update_of_ne hdc, hcurid, if_neg hdc]
    exact h.cpus d hd
  · intro a ha ha'
    rw [hstate]
    by_cases he : a = t
    · simp [he, hmem]
    · simp only [hmem, he, ne_eq, not_false_eq_true, and_true]
      exact h.ready a ha ha'
  · intro d _
    rw [hcurid]
    by_cases hd : d = c
    · rwa [if_pos hd]
    · rw [if_neg hd]
      exact h.current d hd
  · intro a ha ha'
    simp only [hstate, hcurid, true_and]
    by_cases he : a = t
    · rw [if_pos he]
      exact ⟨fun _ => ⟨c, by rw [if_pos rfl, he]⟩, fun _ => rfl⟩
    · rw [if_neg he, h.run a ha ha']
      refine ⟨fun ⟨d, hd, hda⟩ => ⟨d, by rwa [if_neg hd]⟩, fun ⟨d, hda⟩ => ?_⟩
      by_cases hd : d = c
      · rw [if_pos hd] at hda
        exact absurd hda.symm he
      · rw [if_neg hd] at hda
        exact ⟨d, hd, hda⟩
  · intro d e _ _
    rw [hcurid, hcurid]
    by_cases hd : d = c <;> by_cases he : e = c
    · exact fun _ _ => hd.trans he.symm
    · rw [if_pos hd, if_neg he]
      exact fun hte hne => absurd hte.symm (hother (by omega) e he)
    · rw [if_neg hd, if_pos he]
      exact fun hdt hne => absurd hdt (hother (by omega) d hd)
    · rw [if_neg hd, if_neg he]
      exact h.alone d e hd he
  · intro d hd
    obtain ⟨hd, hne⟩ := (hmem 0 d).mp hd
    obtain ⟨hz, hcz⟩ := h.zero d hd
    refine ⟨hz, fun _ => ?_⟩
    rw [hcurid]
    by_cases hzc : z = c
    · rw [if_pos hzc]
      exact Ne.symm hne
    · rw [if_neg hzc]
      exact hcz hzc

/-- The next thread of the ready queue becomes the current one. -/
theorem Inv.switchNext (h : Inv z (· ≠ c) s q) (hc : c < numCpus) (hq : q c = t :: l) :
    Inv z (fun _ => True) (s.switchNext c) (update q c l) := by
  obtain ⟨hfst, hqueues⟩ := h.queues.dequeue hq
  refine @Inv.dispatch s _ q c t z h hc [] l hq ⟨hqueues.ring, hqueues.ids, hqueues.apart⟩ ?_ ?_
  · rw [switchNext_state, hfst]
  · rw [switchNext_curid, hfst]

/-! ### Wake-up -/

/-- Thread `t` sleeps on `chan`. -/
def SleepsOn (s : Sched) (t chan : ℕ) : Prop := s.state t = .sleep ∧ s.channel t = chan

instance (s : Sched) (t chan : ℕ) : Decidable (s.SleepsOn t chan) :=
  inferInstanceAs (Decidable (_ ∧ _))

theorem wakeOne_of_sleepsOn (h : s.SleepsOn pid chan) : wakeOne c chan s pid
      = ((s.tcbSetState pid .ready).tcbSetChan pid 0).tqueueEnqueue c numIds pid :=
  if_pos ⟨h.2, h.1⟩

theorem wakeOne_of_not (h : ¬ s.SleepsOn pid chan) : wakeOne c chan s pid = s :=
  if_neg fun hp => h ⟨hp.2, hp.1⟩

theorem wakeOne_self (h : s.SleepsOn t chan) (c : ℕ) :
    (wakeOne c chan s t).state t = .ready ∧ (wakeOne c chan s t).channel t = 0 := by
  rw [wakeOne_of_sleepsOn h, tqueueEnqueue_state, tqueueEnqueue_channel]
  exact ⟨update_self .., update_self ..⟩

theorem wakeOne_other (c pid : ℕ) (h : t ≠ pid ∨ ¬ s.SleepsOn t chan) :
    (wakeOne c chan s pid).state t = s.state t ∧
      (wakeOne c chan s pid).channel t = s.channel t := by
  by_cases hs : s.SleepsOn pid chan
  · have hne : t ≠ pid := h.elim id fun hn he => hn (he ▸ hs)
    rw [wakeOne_of_sleepsOn hs, tqueueEnqueue_state, tqueueEnqueue_channel]
    exact ⟨update_of_ne hne .., update_of_ne hne ..⟩
  · rw [wakeOne_of_not hs]
    exact ⟨rfl, rfl⟩

theorem sleepsOn_congr (hs : s'.state t = s.state t) (hc : s'.channel t = s.channel t) :
    s'.SleepsOn t chan ↔ s.SleepsOn t chan := by
  rw [SleepsOn, SleepsOn, hs, hc]

theorem wakeAll_other (c : ℕ) : ∀ (l : List ℕ) (s : Sched),
    t ∉ l ∨ ¬ s.SleepsOn t chan → (l.foldl (wakeOne c chan) s).state t = s.state t ∧
      (l.foldl (wakeOne c chan) s).channel t = s.channel t := by
  intro l
  induction l with
  | nil => exact fun s _ => ⟨rfl, rfl⟩
  | cons pid l ih =>
    intro s h
    rw [mem_cons, not_or] at h
    obtain ⟨hst, hch⟩ := wakeOne_other c pid (h.imp And.left id)
    rw [foldl_cons, ← hst, ← hch]
    exact ih _ (h.imp And.right (mt (sleepsOn_congr hst hch).mp))

/-- Every thread of the list that sleeps on the channel becomes ready. -/
theorem wakeAll_sleeper (c : ℕ) : ∀ (l : List ℕ) (s : Sched), t ∈ l →
    s.SleepsOn t chan → (l.foldl (wakeOne c chan) s).state t = .ready ∧
      (l.foldl (wakeOne c chan) s).channel t = 0 := by
  intro l
  induction l with
  | nil => exact nofun
  | cons pid l ih =>
    intro s hm hs
    rw [foldl_cons]
    by_cases ht : t = pid
    · -- woken up in this round, and then left alone
      subst ht
      obtain ⟨hst, hch⟩ := wakeOne_self hs c
      have hno : ¬ (wakeOne c chan s t).SleepsOn t chan := by simp [SleepsOn, hst]
      rw [← hst, ← hch]
      exact wakeAll_other c l _ (.inr hno)
    · obtain ⟨hst, hch⟩ := @wakeOne_other s t chan c pid (.inl ht)
      exact ih _ ((mem_cons.mp hm).resolve_left ht) ((sleepsOn_congr hst hch).mpr hs)

theorem threadWakeup_sleeper (ht : 1 ≤ t) (ht' : t < numIds) (h : s.SleepsOn t chan)
    (c : ℕ) : (s.threadWakeup c chan).state t = .ready ∧ (s.threadWakeup c chan).channel t = 0 := by
  have hm : t ∈ range' 1 (numIds - 1) := by
    rw [mem_range'_1]
    omega
  unfold threadWakeup
  exact wakeAll_sleeper c _ s hm h

theorem threadWakeup_other (h : ¬ s.SleepsOn t chan) (c : ℕ) :
    (s.threadWakeup c chan).state t = s.state t ∧
      (s.threadWakeup c chan).channel t = s.channel t := by
  unfold threadWakeup
  exact wakeAll_other c _ s (.inr h)

theorem wakeAll_curid (c : ℕ) : ∀ (l : List ℕ) (s : Sched),
    (l.foldl (wakeOne c chan) s).curid = s.curid := by
  intro l
  induction l with
  | nil => exact fun _ => rfl
  | cons pid l ih =>
    intro s
    rw [foldl_cons, ih]
    unfold wakeOne
    split
    · exact tqueueEnqueue_curid ..
    · rfl

theorem threadWakeup_curid (s : Sched) (c chan : ℕ) : (s.threadWakeup c chan).curid = s.curid := by
  unfold threadWakeup
  exact wakeAll_curid c _ s

/-- One round of `thread_wakeup`; threads that do not sleep on the channel keep
their place. -/
theorem Inv.wakeOne (h : Inv z live s q) (hc : c < numCpus) (hpid : 1 ≤ pid)
    (hpid' : pid < numIds) (chan : ℕ) :
    ∃ q', Inv z live (wakeOne c chan s pid) q' ∧
      ∀ a, ¬ s.SleepsOn a chan → ∀ d, a ∈ q' d ↔ a ∈ q d := by
  by_cases hs : s.SleepsOn pid chan
  · rw [wakeOne_of_sleepsOn hs]
    refine ⟨_, (h.tcbSetChan pid 0).enqueue hc hpid' (fun _ => ?_) (by omega), fun a ha d => ?_⟩
    · have hst : (s.tcbSetChan pid 0).state pid = .sleep := hs.1
      rw [hst]
      simp
    · have hne : a ≠ pid := fun he => ha (he ▸ hs)
      by_cases hd : d = c
      · rw [hd, update_self, mem_append, mem_singleton]
        simp [hne]
      · rw [update_of_ne hd]
  · rw [wakeOne_of_not hs]
    exact ⟨q, h, fun _ _ _ => Iff.rfl⟩

theorem Inv.wakeAll (hc : c < numCpus) : ∀ (l : List ℕ) (s : Sched) (q : ℕ → List ℕ),
    Inv z live s q → (∀ a ∈ l, 1 ≤ a ∧ a < numIds) →
    ∃ q', Inv z live (l.foldl (Sched.wakeOne c chan) s) q' ∧
      ∀ a, ¬ s.SleepsOn a chan → ∀ d, a ∈ q' d ↔ a ∈ q d := by
  intro l
  induction l with
  | nil => exact fun s q h _ => ⟨q, h, fun _ _ _ => Iff.rfl⟩
  | cons pid l ih =>
    intro s q h hl
    obtain ⟨hpid, hpid'⟩ := hl pid (by simp)
    obtain ⟨q1, h1, hk1⟩ := h.wakeOne hc hpid hpid' chan
    obtain ⟨q2, h2, hk2⟩ := ih _ q1 h1 fun a ha => hl a (by simp [ha])
    refine ⟨q2, h2, fun a ha d => ?_⟩
    -- who does not sleep on the channel is left as it is
    obtain ⟨hst, hch⟩ := wakeOne_other c pid (.inr ha)
    exact (hk2 a (mt (sleepsOn_congr hst hch).mp ha) d).trans (hk1 a ha d)

theorem Inv.threadWakeup (h : Inv z live s q) (hc : c < numCpus) (chan : ℕ) :
    ∃ q', Inv z live (s.threadWakeup c chan) q' ∧
      ∀ a, ¬ s.SleepsOn a chan → ∀ d, a ∈ q' d ↔ a ∈ q d := by
  unfold Sched.threadWakeup
  refine Inv.wakeAll hc _ s q h fun a ha => ?_
  rw [mem_range'_1] at ha
  omega

/-! ### The other calls -/

theorem Inv.threadSpawn (h : Inv z live s q) (hc : c < numCpus) (ht : 1 ≤ t) (ht' : t < numIds)
    (hd : s.state t = .dead) :
    Inv z live (s.threadSpawn c t) (update q c (q c ++ [t])) :=
  h.enqueue hc ht' (fun _ => by rw [hd]; simp) (by omega)

theorem threadSpawn_state (s : Sched) (c pid : ℕ) :
    (s.threadSpawn c pid).state = update s.state pid .ready :=
  tqueueEnqueue_state ..

/-- A switch neither puts a thread to sleep nor wakes one up. -/
theorem Inv.sleepsOn_switchNext (h : Inv z live s q) (hq : q c = t :: l) {a : ℕ}
    (ha : 1 ≤ a) (ha' : a < numIds) (chan : ℕ) :
    (s.switchNext c).SleepsOn a chan ↔ s.SleepsOn a chan := by
  have hch : (s.switchNext c).channel a = s.channel a := by rw [switchNext_channel]
  have hst : (s.switchNext c).state a = if a = t then .run else s.state a := by
    rw [switchNext_state, (h.queues.dequeue hq).1, update_apply]
  by_cases he : a = t
  · have hready := (h.ready a ha ha').mpr ⟨c, by rw [hq, he]; simp⟩
    rw [if_pos he] at hst
    simp [SleepsOn, hst, hready]
  · exact sleepsOn_congr (by rw [hst, if_neg he]) hch

section

variable (h : Inv z (fun _ => True) s q)
include h

theorem Inv.state_curid (hpos : 1 ≤ s.curid c) : s.state (s.curid c) = .run :=
  (h.run _ hpos (h.current c trivial)).mpr ⟨c, trivial, rfl⟩

/-- The current thread of a CPU goes to the end of its ready queue. -/
theorem Inv.requeue (hc : c < numCpus) (hz : s.curid c = 0 → c = z) :
    Inv z (· ≠ c) ((s.tcbSetState (s.curid c) .ready).tqueueEnqueue c numIds (s.curid c))
      (update q c (q c ++ [s.curid c])) := by
  have h0 := h.leave c
  have hstate : (s.tcbSetState (s.curid c) .sleep).state (s.curid c) = .sleep :=
    update_self ..
  have h1 := h0.enqueue hc (h.current c trivial) (fun _ => by rw [hstate]; simp) fun he =>
    ⟨hz he, fun hne => hne (hz he).symm, fun d hd => (h.zero d hd).2 trivial (hz he ▸ he)⟩
  have hidem : (s.tcbSetState (s.curid c) .sleep).tcbSetState (s.curid c) .ready
      = s.tcbSetState (s.curid c) .ready := by
    simp [tcbSetState]
  rwa [hidem] at h1

/-- `thread_yield` switches to the first thread of the queue, the thread itself being its
last. -/
theorem Inv.threadYield_next (hc : c < numCpus)
    (hz : s.curid c = 0 → c = z) (hl : q c ++ [s.curid c] = t :: l) :
    Inv z (fun _ => True) (s.threadYield c) (update q c l) ∧
      (s.threadYield c).curid = update s.curid c t ∧
      (s.threadYield c).state = update (update s.state (s.curid c) .ready) t .run ∧
      (s.threadYield c).channel = s.channel := by
  have h1 := h.requeue hc hz
  have hq1 : update q c (q c ++ [s.curid c]) c = t :: l := by
    rw [update_self, hl]
  have hfst := (h1.queues.dequeue hq1).1
  refine ⟨?_, ?_, ?_, ?_⟩
  · have := h1.switchNext hc hq1
    rwa [update_idem] at this
  · rw [Sched.threadYield, switchNext_curid, hfst, tqueueEnqueue_curid]
    rfl
  · rw [Sched.threadYield, switchNext_state, hfst, tqueueEnqueue_state]
    rfl
  · rw [Sched.threadYield, switchNext_channel, tqueueEnqueue_channel]
    rfl

/-- `thread_sleep` switches to the first thread of the queue. -/
theorem Inv.threadSleep_next (hc : c < numCpus) (hl : q c = t :: l) (chan : ℕ) :
    Inv z (fun _ => True) (s.threadSleep c chan) (update q c l) ∧
      (s.threadSleep c chan).curid = update s.curid c t ∧
      (s.threadSleep c chan).state =
        update (update s.state (s.curid c) .sleep) t .run ∧
      (s.threadSleep c chan).channel = update s.channel (s.curid c) chan := by
  have h1 := (h.leave c).tcbSetChan (s.curid c) chan
  have hfst := (h1.queues.dequeue hl).1
  refine ⟨h1.switchNext hc hl, ?_, ?_, ?_⟩
  · rw [Sched.threadSleep, switchNext_curid, hfst]
    rfl
  · rw [Sched.threadSleep, switchNext_state, hfst]
    rfl
  · rw [Sched.threadSleep, switchNext_channel]
    rfl

theorem Inv.threadYield (hc : c < numCpus) (hz : s.curid c = 0 → c = z) :
    ∃ q', Inv z (fun _ => True) (s.threadYield c) q' ∧
      ∀ a chan, 1 ≤ a → a < numIds → ((s.threadYield c).SleepsOn a chan ↔ s.SleepsOn a chan) := by
  have h1 := h.requeue hc hz
  -- the queue is not empty: the thread itself is in it
  obtain ⟨t, l, hl⟩ := exists_cons_of_ne_nil (l := q c ++ [s.curid c]) (by simp)
  have hq1 : update q c (q c ++ [s.curid c]) c = t :: l := by
    rw [update_self, hl]
  refine ⟨_, h1.switchNext hc hq1, fun a chan ha ha' => ?_⟩
  refine (h1.sleepsOn_switchNext hq1 ha ha' chan).trans ?_
  by_cases he : a = s.curid c
  · have hrun := h.state_curid (he ▸ ha)
    simp [SleepsOn, tcbSetState, he, hrun]
  · refine sleepsOn_congr ?_ ?_
    · rw [tqueueEnqueue_state]
      exact update_of_ne he ..
    · rw [tqueueEnqueue_channel]
      rfl

theorem Inv.threadSleep (hc : c < numCpus) (hq : s.readyQueue c ≠ []) (chan : ℕ) :
    ∃ q', Inv z (fun _ => True) (s.threadSleep c chan) q' ∧
      ∀ a ch, 1 ≤ a → a < numIds → ((s.threadSleep c chan).SleepsOn a ch ↔
        (s.curid c = a ∧ chan = ch) ∨ s.SleepsOn a ch) := by
  rw [h.queues.readyQueue] at hq
  obtain ⟨t, l, hl⟩ := exists_cons_of_ne_nil hq
  have h1 := (h.leave c).tcbSetChan (s.curid c) chan
  refine ⟨_, h1.switchNext hc hl, fun a ch ha ha' => ?_⟩
  refine (h1.sleepsOn_switchNext hl ha ha' ch).trans ?_
  by_cases he : a = s.curid c
  · have hrun := h.state_curid (he ▸ ha)
    simp [SleepsOn, Sched.tcbSetState, Sched.tcbSetChan, he, hrun]
  · have hkeep : ((s.tcbSetState (s.curid c) .sleep).tcbSetChan (s.curid c) chan).SleepsOn a ch ↔
        s.SleepsOn a ch :=
      sleepsOn_congr (update_of_ne he ..) (update_of_ne he ..)
    rw [hkeep]
    simp [Ne.symm he]

theorem Inv.sleepsOn_threadSleepReturn {a : ℕ} (ha : 1 ≤ a)
    (c chan : ℕ) : (s.threadSleepReturn c).SleepsOn a chan ↔ s.SleepsOn a chan := by
  by_cases he : a = s.curid c
  · have hrun := h.state_curid (he ▸ ha)
    simp [SleepsOn, threadSleepReturn, Sched.tcbSetChan, he, hrun]
  · exact sleepsOn_congr rfl (update_of_ne he ..)

end

theorem sleepsOn_threadSpawn (hd : s.state t = .dead) (c a chan : ℕ) :
    (s.threadSpawn c t).SleepsOn a chan ↔ s.SleepsOn a chan := by
  have hch : (s.threadSpawn c t).channel = s.channel := tqueueEnqueue_channel ..
  by_cases he : a = t
  · simp [SleepsOn, threadSpawn_state, he, hd]
  · refine sleepsOn_congr ?_ (by rw [hch])
    rw [threadSpawn_state, update_of_ne he]

theorem inv_threadInit (z : ℕ) : Inv z (· ≠ 0) threadInit fun _ => [] := by
  constructor
  · refine ⟨fun c => ⟨by simp, ?_⟩, by simp, by simp⟩
    rw [nil_append, isChain_pair]
    exact ⟨by simp [threadInit, linksAt], by simp [threadInit, linksAt]⟩
  · exact fun c _ => ⟨rfl, rfl⟩
  · intro t ht _
    have hne : t ≠ 0 := by omega
    simp [threadInit, hne]
  · exact fun c _ => by simp [threadInit, numIds]
  · intro t ht _
    have hne : t ≠ 0 := by omega
    simp [threadInit, hne, Ne.symm hne]
  · exact fun c d _ _ _ hne => absurd rfl hne
  · simp

/-- `kern_main` leaves its first process in the ready queue and runs the second. -/
theorem inv_kernMain {idle ding : ℕ} (hi : 1 ≤ idle) (hi' : idle < numIds) (hd : 1 ≤ ding)
    (hd' : ding < numIds) (hne : idle ≠ ding) (z : ℕ) :
    Inv z (fun _ => True) (kernMain idle ding) (update (fun _ => []) 0 [idle]) := by
  have hdead : ∀ t, 1 ≤ t → threadInit.state t = .dead := by
    intro t ht
    have hne : t ≠ 0 := by omega
    simp [threadInit, hne]
  have hcpu : 0 < numCpus := by decide
  have h1 := (inv_threadInit z).threadSpawn hcpu hi hi' (hdead idle hi)
  have h2 := h1.threadSpawn hcpu hd hd' (by
    rw [threadSpawn_state, update_of_ne hne.symm, hdead ding hd])
  have hq : update (update (fun _ => []) 0 ([] ++ [idle])) 0
      ((update (fun _ => []) 0 ([] ++ [idle]) : ℕ → List ℕ) 0 ++ [ding]) 0
        = [idle] ++ ding :: [] := by
    simp
  have hqueues := h2.queues.remove hq
  have hrest := tqueueRemove_rest ((threadInit.threadSpawn 0 idle).threadSpawn 0 ding) 0 numIds ding
  simp only [rest, Prod.mk.injEq] at hrest
  have hmain : Inv z (fun _ => True) (kernMain idle ding) _ := h2.dispatch hcpu hq
    ⟨hqueues.ring, hqueues.ids, hqueues.apart⟩ (by rw [← hrest.1]; rfl) (by rw [← hrest.2.2]; rfl)
  rwa [update_idem, update_idem] at hmain

theorem kernMain_state (idle ding : ℕ) : (kernMain idle ding).state = update
    (update (update threadInit.state idle .ready) ding .ready) ding .run := by
  have hrest := tqueueRemove_rest ((threadInit.threadSpawn 0 idle).threadSpawn 0 ding) 0 numIds ding
  rw [← threadSpawn_state threadInit 0, ← threadSpawn_state _ 0]
  exact congrArg (update · ding TState.run) (congrArg Prod.fst hrest)

theorem kernMain_awake (idle ding t : ℕ) : (kernMain idle ding).state t ≠ .sleep := by
  rw [kernMain_state]
  simp only [update_apply, threadInit]
  split_ifs <;> simp

end Sched

/-! ### Runs -/

/-- What the history of a run records. -/
inductive SchedEvent where
  | slept (t chan : ℕ)
  | woke (chan : ℕ)
  deriving DecidableEq, Repr

/-- The tables, and the history with the latest event first. -/
structure SchedRun where
  s : Sched
  events : List SchedEvent

namespace SchedRun

/-- Thread `t` has called `thread_sleep(chan, lk)`, and no `thread_wakeup(chan)` ran
since. -/
def SleptSince (events : List SchedEvent) (t chan : ℕ) : Prop :=
  ∃ l₁ l₂, events = l₁ ++ .slept t chan :: l₂ ∧ .woke chan ∉ l₁

theorem sleptSince_cons {e : SchedEvent} {events : List SchedEvent} {t chan : ℕ} :
    SleptSince (e :: events) t chan ↔
      e = .slept t chan ∨ (e ≠ .woke chan ∧ SleptSince events t chan) := by
  constructor
  · rintro ⟨l1, l2, hl, hw⟩
    cases l1 with
    | nil => exact .inl (cons.inj hl).1
    | cons e' l1 =>
      obtain ⟨he', hl'⟩ := cons.inj hl
      rw [mem_cons, not_or] at hw
      exact .inr ⟨fun he => hw.1 (he.symm.trans he'), l1, l2, hl', hw.2⟩
  · rintro (rfl | ⟨hne, l1, l2, rfl, hw⟩)
    · exact ⟨[], events, rfl, not_mem_nil⟩
    · refine ⟨e :: l1, l2, rfl, ?_⟩
      rw [mem_cons, not_or]
      exact ⟨Ne.symm hne, hw⟩

/-- One call, on any CPU.  `zero c` says that CPU `c` may give up thread 0. -/
inductive Step (zero : ℕ → Prop) : SchedRun → SchedRun → Prop
  -- `kctx_new` returned a fresh id
  | threadSpawn {r : SchedRun} (c pid : ℕ) (hc : c < numCpus) (hpid : 1 ≤ pid)
    (hpid' : pid < numIds) (hdead : r.s.state pid = .dead) :
    Step zero r { r with s := r.s.threadSpawn c pid }
  | threadYield {r : SchedRun} (c : ℕ) (hc : c < numCpus) (hz : r.s.curid c = 0 → zero c) :
    Step zero r { r with s := r.s.threadYield c }
  | threadSleep {r : SchedRun} (c chan : ℕ) (hc : c < numCpus) (hz : r.s.curid c = 0 → zero c)
    (hq : r.s.readyQueue c ≠ []) :
    Step zero r ⟨r.s.threadSleep c chan, .slept (r.s.curid c) chan :: r.events⟩
  | threadSleepReturn {r : SchedRun} (c : ℕ) (hc : c < numCpus) :
    Step zero r { r with s := r.s.threadSleepReturn c }
  | threadWakeup {r : SchedRun} (c chan : ℕ) (hc : c < numCpus) :
    Step zero r ⟨r.s.threadWakeup c chan, .woke chan :: r.events⟩

/-- The states after `kern_main` has switched to its first process. -/
def Reachable (zero : ℕ → Prop) (idle ding : ℕ) : SchedRun → Prop :=
  ReflTransGen (Step zero) ⟨Sched.kernMain idle ding, []⟩

/-- The sleeping threads are those of the history. -/
def Asleep (r : SchedRun) : Prop :=
  ∀ t chan, 1 ≤ t → t < numIds → (r.s.SleepsOn t chan ↔ SleptSince r.events t chan)

/-- The invariant of the tables and of the history. -/
def Inv (z : ℕ) (r : SchedRun) : Prop := (∃ q, Sched.Inv z (fun _ => True) r.s q) ∧ r.Asleep

variable {r r' : SchedRun} {z c : ℕ}

/-- Nothing falls asleep or wakes up. -/
theorem Asleep.congr {s : Sched} (h : r.Asleep)
    (hkeep : ∀ t chan, 1 ≤ t → t < numIds → (s.SleepsOn t chan ↔ r.s.SleepsOn t chan)) :
    Asleep { r with s := s } :=
  fun t chan ht ht' => (hkeep t chan ht ht').trans (h t chan ht ht')

theorem Asleep.threadWakeup (h : r.Asleep) (c chan : ℕ) :
    Asleep ⟨r.s.threadWakeup c chan, .woke chan :: r.events⟩ := by
  intro t ch ht ht'
  rw [sleptSince_cons, ← h t ch ht ht']
  by_cases hs : r.s.SleepsOn t chan
  · -- woken up
    obtain ⟨hst, -⟩ := Sched.threadWakeup_sleeper ht ht' hs c
    refine ⟨fun hs' => ?_, ?_⟩
    · exact absurd hs'.1 (by simp [hst])
    · rintro (he | ⟨hne, hs'⟩)
      · simp at he
      · exact absurd (by rw [← hs.2, hs'.2]) hne
  · obtain ⟨hst, hch⟩ := Sched.threadWakeup_other hs c
    rw [Sched.sleepsOn_congr hst hch]
    refine ⟨fun hs' => .inr ⟨fun he => ?_, hs'⟩, ?_⟩
    · exact hs ((SchedEvent.woke.inj he) ▸ hs')
    · rintro (he | ⟨-, hs'⟩)
      · simp at he
      · exact hs'

/-- A call keeps the invariant, if thread 0 leaves CPU `z` only. -/
theorem inv_of_step (h : r.Inv z) (hstep : Step (· = z) r r') : r'.Inv z := by
  obtain ⟨⟨q, hq⟩, hasl⟩ := h
  cases hstep with
  | threadSpawn c pid hc hpid hpid' hdead =>
    exact ⟨⟨_, hq.threadSpawn hc hpid hpid' hdead⟩,
      hasl.congr fun t chan _ _ => Sched.sleepsOn_threadSpawn hdead c t chan⟩
  | threadYield c hc hz =>
    obtain ⟨q', hq', hkeep⟩ := hq.threadYield hc hz
    exact ⟨⟨q', hq'⟩, hasl.congr hkeep⟩
  | threadSleep c chan hc hz hne =>
    obtain ⟨q', hq', hkeep⟩ := hq.threadSleep hc hne chan
    refine ⟨⟨q', hq'⟩, fun t ch ht ht' => ?_⟩
    rw [hkeep t ch ht ht', sleptSince_cons, hasl t ch ht ht', SchedEvent.slept.injEq]
    simp
  | threadSleepReturn c hc =>
    exact ⟨⟨q, hq.tcbSetChan _ _⟩,
      hasl.congr fun t chan ht _ => hq.sleepsOn_threadSleepReturn ht c chan⟩
  | threadWakeup c chan hc =>
    obtain ⟨q', hq', -⟩ := hq.threadWakeup hc chan
    exact ⟨⟨q', hq'⟩, hasl.threadWakeup c chan⟩

theorem inv_of_run {idle ding : ℕ} (hi : 1 ≤ idle ∧ idle < numIds) (hd : 1 ≤ ding ∧ ding < numIds)
    (hne : idle ≠ ding) (hrun : Reachable (· = z) idle ding r) : r.Inv z := by
  induction hrun with
  | refl =>
    refine ⟨⟨_, Sched.inv_kernMain hi.1 hi.2 hd.1 hd.2 hne z⟩, fun t chan _ _ => ?_⟩
    exact ⟨fun hs => absurd hs.1 (Sched.kernMain_awake idle ding t), fun ⟨l1, l2, hl, _⟩ => by
      simp at hl⟩
  | tail _ hstep ih => exact inv_of_step ih hstep

/-! ### The tables -/

/-- The tables agree with each other and with the history, for all threads but
thread 0. -/
structure Consistent (r : SchedRun) : Prop where
  ready : ∀ t, 1 ≤ t → t < numIds →
    (r.s.state t = .ready ↔ ∃ c < numCpus, t ∈ r.s.readyQueue c)
  once : ∀ t, 1 ≤ t → t < numIds → ∀ c < numCpus, t ∈ r.s.readyQueue c →
    (r.s.readyQueue c).count t = 1 ∧ ∀ d < numCpus, t ∈ r.s.readyQueue d → d = c
  run : ∀ t, 1 ≤ t → t < numIds →
    (r.s.state t = .run ↔ ∃! c, c < numCpus ∧ r.s.curid c = t)
  sleep : ∀ t, 1 ≤ t → t < numIds →
    (r.s.state t = .sleep ↔ ∃ chan, SleptSince r.events t chan)
  asleep : ∀ t chan, 1 ≤ t → t < numIds → SleptSince r.events t chan →
    r.s.channel t = chan ∧ ∀ c < numCpus, t ∉ r.s.readyQueue c
  -- a wake-up of `chan` changes only threads sleeping on `chan`
  wakeup : ∀ c < numCpus, ∀ chan t, 1 ≤ t → t < numIds → ¬ r.s.SleepsOn t chan →
    (r.s.threadWakeup c chan).state t = r.s.state t ∧
    (r.s.threadWakeup c chan).channel t = r.s.channel t ∧
    ∀ d, t ∈ (r.s.threadWakeup c chan).readyQueue d ↔ t ∈ r.s.readyQueue d

theorem Inv.consistent (h : r.Inv z) : r.Consistent := by
  obtain ⟨⟨q, hq⟩, hasl⟩ := h
  have hrq := hq.queues.readyQueue
  have hcpu : ∀ {t c : ℕ}, t ∈ q c → c < numCpus := by
    intro t c ht
    by_contra hc
    rw [(hq.cpus c (not_lt.mp hc)).1] at ht
    exact not_mem_nil ht
  constructor
  · intro t ht ht'
    simp only [hrq, hq.ready t ht ht']
    exact ⟨fun ⟨c, hc⟩ => ⟨c, hcpu hc, hc⟩, fun ⟨c, _, hc⟩ => ⟨c, hc⟩⟩
  · intro t _ _ c _ hc
    simp only [hrq] at hc ⊢
    refine ⟨count_eq_one_of_mem ?_ hc, fun d _ hd => hq.queues.apart d c t hd hc⟩
    exact (nodup_cons.mp (hq.queues.ring c).nodup).2
  · intro t ht ht'
    rw [hq.run t ht ht']
    constructor
    · rintro ⟨c, -, hc⟩
      have hlt : c < numCpus := by
        by_contra hge
        rw [(hq.cpus c (not_lt.mp hge)).2] at hc
        omega
      exact ⟨c, ⟨hlt, hc⟩, fun d hd => hq.alone d c trivial trivial (hd.2.trans hc.symm)
        (by rw [hd.2]; omega)⟩
    · rintro ⟨c, ⟨-, hc⟩, -⟩
      exact ⟨c, trivial, hc⟩
  · intro t ht ht'
    refine ⟨fun hs => ⟨r.s.channel t, (hasl t _ ht ht').mp ⟨hs, rfl⟩⟩, fun ⟨chan, hs⟩ => ?_⟩
    exact ((hasl t chan ht ht').mpr hs).1
  · intro t chan ht ht' hs
    obtain ⟨hst, hch⟩ := (hasl t chan ht ht').mpr hs
    refine ⟨hch, fun c _ hc => ?_⟩
    rw [hrq] at hc
    rw [(hq.ready t ht ht').mpr ⟨c, hc⟩] at hst
    simp at hst
  · intro c hc chan t _ _ hs
    obtain ⟨q', hq', hkeep⟩ := hq.threadWakeup hc chan
    obtain ⟨hst, hch⟩ := Sched.threadWakeup_other hs c
    refine ⟨hst, hch, fun d => ?_⟩
    rw [hq'.queues.readyQueue, hrq]
    exact hkeep t hs d

/-- **The scheduler's tables stay consistent** after `kern_main`, for every sequence
of calls on any CPUs in which thread 0 is given up on one CPU only. -/
theorem sched_consistent {idle ding : ℕ} (hi : 1 ≤ idle ∧ idle < numIds)
    (hd : 1 ≤ ding ∧ ding < numIds) (hne : idle ≠ ding) {z : ℕ} {r : SchedRun}
    (hrun : Reachable (· = z) idle ding r) : r.Consistent :=
  (inv_of_run hi hd hne hrun).consistent

/-- The first process sleeps, and is woken up by the second. -/
theorem sched_consistent_sleepWake : ∃ r, Reachable (· = 0) 1 2 r ∧
    r.s.curid 0 = 1 ∧ r.s.readyQueue 0 = [2] ∧ r.Consistent := by
  have h₁ := (ReflTransGen.refl (r := Step (· = 0)) (a := ⟨Sched.kernMain 1 2, []⟩)).tail
    (.threadSleep 0 5 (by decide) (fun _ => rfl) (by decide +kernel))
  have h₂ := h₁.tail (.threadWakeup 0 5 (by decide))
  exact ⟨_, h₂, by decide +kernel, by decide +kernel,
    sched_consistent (by decide) (by decide) (by decide) h₂⟩

/-- **Thread 0 on two CPUs loses threads.**  CPU 1 puts thread 0 into its queue and
spawns thread 4 behind it; CPU 2, whose current thread is still thread 0, yields and
cuts the queue of CPU 1 off behind thread 0.  After one more call of CPU 1 thread 4
is ready, but in no queue. -/
theorem sched_parallel_zero : ∃ r, Reachable (fun _ => True) 1 2 r ∧
    r.s.state 4 = .ready ∧ (∀ c < numCpus, 4 ∉ r.s.readyQueue c) ∧ ¬ r.Consistent := by
  have h₁ := (ReflTransGen.refl (r := Step fun _ => True) (a := ⟨Sched.kernMain 1 2, []⟩)).tail
      (.threadSpawn 1 3 (by decide) (by decide) (by decide) (by decide +kernel))
  have h₂ := h₁.tail (.threadYield 1 (by decide) fun _ => trivial)
  have h₃ := h₂.tail (.threadSpawn 1 4 (by decide) (by decide) (by decide) (by decide +kernel))
  have h₄ := h₃.tail (.threadYield 2 (by decide) fun _ => trivial)
  have h₅ := h₄.tail (.threadYield 1 (by decide) fun _ => trivial)
  have hready : (((((((Sched.kernMain 1 2).threadSpawn 1 3).threadYield 1).threadSpawn 1
      4).threadYield 2).threadYield 1).state 4) = .ready := by decide +kernel
  have hlost : ∀ c < numCpus, 4 ∉ ((((((Sched.kernMain 1 2).threadSpawn 1 3).threadYield
      1).threadSpawn 1 4).threadYield 2).threadYield 1).readyQueue c := by decide +kernel
  refine ⟨_, h₅, hready, hlost, fun hc => ?_⟩
  obtain ⟨c, hlt, hm⟩ := (hc.ready 4 (by decide) (by decide)).mp hready
  exact hlost c hlt hm

end SchedRun

end Mcertikos
