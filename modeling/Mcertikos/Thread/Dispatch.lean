/-
Which threads the scheduler switches to (`thread_yield`, `thread_sleep`).

After `kern_main` one CPU runs the processes.  The current thread yields, spawns, wakes
others up, sleeps in a call of the file system, or takes part in synchronous IPC; of the
latter the conditions of the two waiting loops are modelled, since they decide whether a
call of `sys_sync_send` or `sys_sync_recv` goes to sleep.  `dequeued` keeps the ids that
`tqueue_dequeue` returned in `thread_yield` and `thread_sleep`.

* `Dispatch.Inv` — the threads in the tables are spawned ones;
* `Dispatch.dequeued_spawned` — so are the dequeued ids, in every run in which
  `thread_sleep` finds another thread ready and `thread_spawn` a free id;
* `Dispatch.all_receiving` — two processes that wait for a message.

Design notes: `sendCv i` and `recvCv i` are the addresses of the two condition variables
of message block `i`, and `N` is the `NUM_IDS` of the IPC code.  A thread outside of the two
loops is not followed: it may sleep on any channel, return from `thread_sleep`, and wake up
any channel, at any time.
-/
import Mcertikos.Thread.Sched
import Mcertikos.Ipc.Queue

namespace Mcertikos

open List Relation Function

/-- The loop of `sys_sync_send` or `sys_sync_recv` a thread waits in. -/
inductive IpcLoop where
  | send
  | recv (sendPid : ℕ)
  deriving DecidableEq, Repr

/-- The two calls with their arguments; where `sys_sync_recv` copies the message to makes
no difference here. -/
inductive IpcCall where
  | send (recvPid userAddr length : ℕ)
  | recv (sendPid : ℕ)
  deriving DecidableEq, Repr

/-- The scheduler's tables, the message queue, the loops the threads are in, the ids
`thread_spawn` returned and the ids dequeued, the latest first. -/
structure Dispatch where
  s : Sched
  ipc : Ipc
  loop : ℕ → Option IpcLoop
  spawned : List ℕ
  dequeued : List ℕ

namespace Dispatch

/-- `get_curid()`. -/
def cur (d : Dispatch) : ℕ := d.s.curid 0

/-- The current thread leaves or enters a loop. -/
def setLoop (d : Dispatch) (w : Option IpcLoop) : Dispatch :=
  { d with loop := update d.loop d.cur w }

def threadWakeup (d : Dispatch) (chan : ℕ) : Dispatch := { d with s := d.s.threadWakeup 0 chan }

/-- After `kern_main`, which got the ids `idle` and `ding` from `proc_create`. -/
def kernMain (N idle ding : ℕ) : Dispatch where
  s := Sched.kernMain idle ding
  ipc := Ipc.ipcInit N
  loop := fun _ => none
  spawned := [ding, idle]
  dequeued := []

section Ipc

variable (N : ℕ) (sendCv recvCv : ℕ → ℕ)

/-- How a section of an IPC call under `msg_lock` ends: the call returns, or it calls
`thread_sleep` on a channel. -/
inductive Outcome where
  | returned (d : Dispatch)
  | sleeps (d : Dispatch) (chan : ℕ)

def Outcome.state : Outcome → Dispatch
  | returned d => d
  | sleeps d _ => d

/-- `sys_sync_send`, from a test of its loop on. -/
def sendLoop (d : Dispatch) : Option Outcome :=
  (Ipc.msgGetBlockBySendID N d.ipc d.cur).map fun r =>
    if r ≠ N then .sleeps (d.setLoop (some .send)) (recvCv d.cur)
    else .returned (d.setLoop none)

/-- `sys_sync_recv`, from a test of its loop on. -/
def recvLoop (d : Dispatch) (sendPid : ℕ) : Option Outcome :=
  (Ipc.msgGetBlockBySendID N d.ipc sendPid).map fun r =>
    if r = N ∨ (d.ipc.msgBlock sendPid).recvPid ≠ d.cur then
      .sleeps (d.setLoop (some (.recv sendPid))) (sendCv sendPid)
    else
      .returned (({ d with ipc := Ipc.msgRemove N d.ipc sendPid }.threadWakeup
        (recvCv sendPid)).setLoop none)

/-- The two calls from their start. -/
def enter (d : Dispatch) : IpcCall → Option Outcome
  | .send recvPid userAddr length =>
    sendLoop N recvCv
      ({ d with
        ipc := Ipc.msgEnqueue N (d.ipc.setMessage d.cur recvPid userAddr length)
          d.cur }.threadWakeup (sendCv d.cur))
  | .recv sendPid => recvLoop N sendCv recvCv d sendPid

/-- The end of `thread_sleep` and the next test of the loop. -/
def resume (d : Dispatch) : IpcLoop → Option Outcome
  | .send => sendLoop N recvCv { d with s := d.s.threadSleepReturn 0 }
  | .recv sendPid => recvLoop N sendCv recvCv { d with s := d.s.threadSleepReturn 0 } sendPid

end Ipc

/-- `thread_yield`. -/
def yield (d : Dispatch) : Dispatch :=
  { d with s := d.s.threadYield 0, dequeued := (d.s.threadYield 0).curid 0 :: d.dequeued }

/-- `thread_sleep` up to the context switch. -/
def sleep (d : Dispatch) (chan : ℕ) : Dispatch :=
  { d with
    s := d.s.threadSleep 0 chan
    dequeued := (d.s.threadSleep 0 chan).curid 0 :: d.dequeued }

/-- `thread_spawn` with the id it gets from `kctx_new`. -/
def spawn (d : Dispatch) (pid : ℕ) : Dispatch :=
  { d with s := d.s.threadSpawn 0 pid, spawned := pid :: d.spawned }

/-- The calls whose safety depends on the tables. -/
inductive Request where
  | sleep
  | spawn (pid : ℕ)

/-- One step of the current thread.  `ok` restricts the calls of `thread_sleep` and
`thread_spawn`. -/
inductive Step (N : ℕ) (sendCv recvCv : ℕ → ℕ) (ok : Sched → Request → Prop) :
    Dispatch → Dispatch → Prop where
  | yield {d : Dispatch} : Step N sendCv recvCv ok d d.yield
  | spawn {d : Dispatch} {pid : ℕ} (hok : ok d.s (.spawn pid)) :
      Step N sendCv recvCv ok d (d.spawn pid)
  | wakeup {d : Dispatch} {chan : ℕ} : Step N sendCv recvCv ok d (d.threadWakeup chan)
  | sleep {d : Dispatch} {chan : ℕ} (hw : d.loop d.cur = none) (hok : ok d.s .sleep) :
      Step N sendCv recvCv ok d (d.sleep chan)
  | sleepReturn {d : Dispatch} (hw : d.loop d.cur = none) :
      Step N sendCv recvCv ok d { d with s := d.s.threadSleepReturn 0 }
  | ipcReturn {d d' : Dispatch} {c : IpcCall} (hw : d.loop d.cur = none)
      (hs : d.enter N sendCv recvCv c = some (.returned d')) : Step N sendCv recvCv ok d d'
  | ipcSleep {d d' : Dispatch} {c : IpcCall} {chan : ℕ} (hw : d.loop d.cur = none)
      (hs : d.enter N sendCv recvCv c = some (.sleeps d' chan)) (hok : ok d'.s .sleep) :
      Step N sendCv recvCv ok d (d'.sleep chan)
  | resumeReturn {d d' : Dispatch} {w : IpcLoop} (hw : d.loop d.cur = some w)
      (hs : d.resume N sendCv recvCv w = some (.returned d')) : Step N sendCv recvCv ok d d'
  | resumeSleep {d d' : Dispatch} {w : IpcLoop} {chan : ℕ} (hw : d.loop d.cur = some w)
      (hs : d.resume N sendCv recvCv w = some (.sleeps d' chan)) (hok : ok d'.s .sleep) :
      Step N sendCv recvCv ok d (d'.sleep chan)

def Reachable (N : ℕ) (sendCv recvCv : ℕ → ℕ) (ok : Sched → Request → Prop) (idle ding : ℕ) :
    Dispatch → Prop :=
  ReflTransGen (Step N sendCv recvCv ok) (kernMain N idle ding)

/-- A thread is ready when `thread_sleep` is called, and `thread_spawn` gets a free id. -/
def Safe (s : Sched) : Request → Prop
  | .sleep => s.readyQueue 0 ≠ []
  | .spawn pid => 1 ≤ pid ∧ pid < numIds ∧ s.state pid = .dead

instance (s : Sched) : ∀ r, Decidable (Safe s r)
  | .sleep => inferInstanceAs (Decidable (_ ≠ _))
  | .spawn _ => inferInstanceAs (Decidable (_ ∧ _))

/-! ### The invariant -/

/-- Every thread with a live control block was spawned; thread 0 never runs again. -/
structure Inv (d : Dispatch) : Prop where
  sched : ∃ q, Sched.Inv 0 (fun _ => True) d.s q ∧ ∀ c, 0 ∉ q c
  cur : d.s.curid 0 ≠ 0
  zero : d.s.state 0 ≠ .sleep
  known : ∀ t, 1 ≤ t → t < numIds → d.s.state t ≠ .dead → t ∈ d.spawned
  dequeued : ∀ t ∈ d.dequeued, t < numIds ∧ t ∈ d.spawned

namespace Inv

variable {d d' : Dispatch} {t : ℕ}

/-- Loops and messages do not matter. -/
theorem congr (h : Inv d) (hs : d'.s = d.s) (hsp : d'.spawned = d.spawned)
    (hdq : d'.dequeued = d.dequeued) : Inv d' := by
  obtain ⟨h1, h2, h3, h4, h5⟩ := h
  exact ⟨by rwa [hs], by rwa [hs], by rwa [hs], by rwa [hs, hsp], by rwa [hdq, hsp]⟩

/-- Every thread of the CPU was spawned. -/
theorem mem_spawned (h : Inv d) {q : ℕ → List ℕ} (hq : Sched.Inv 0 (fun _ => True) d.s q)
    (h0 : ∀ c, 0 ∉ q c) (ht : t ∈ q 0 ++ [d.s.curid 0]) :
    1 ≤ t ∧ t < numIds ∧ t ∈ d.spawned := by
  rcases mem_append.mp ht with ht | ht
  · have hpos : 1 ≤ t := Nat.one_le_iff_ne_zero.mpr fun he => h0 0 (he ▸ ht)
    have hlt := hq.queues.ids 0 t ht
    refine ⟨hpos, hlt, h.known t hpos hlt ?_⟩
    rw [(hq.ready t hpos hlt).mpr ⟨0, ht⟩]
    simp
  · obtain rfl := mem_singleton.mp ht
    have hpos := Nat.one_le_iff_ne_zero.mpr h.cur
    have hlt := hq.current 0 trivial
    refine ⟨hpos, hlt, h.known _ hpos hlt ?_⟩
    rw [hq.state_curid hpos]
    simp

/-- **A switch.**  The current thread gets the state `st` and the thread `t` that comes
after it was spawned. -/
theorem switch (h : Inv d) {s' : Sched} {q q' : ℕ → List ℕ} {st : TState}
    (hq : Sched.Inv 0 (fun _ => True) d.s q) (h0 : ∀ c, 0 ∉ q c)
    (ht : t ∈ q 0 ++ [d.s.curid 0]) (hq' : Sched.Inv 0 (fun _ => True) s' q')
    (h0' : ∀ c, 0 ∉ q' c) (hcur : s'.curid = update d.s.curid 0 t)
    (hst : s'.state = update (update d.s.state (d.s.curid 0) st) t .run) :
    Inv { d with s := s', dequeued := s'.curid 0 :: d.dequeued } := by
  obtain ⟨hpos, hlt, hsp⟩ := h.mem_spawned hq h0 ht
  have hcur0 : s'.curid 0 = t := by rw [hcur, update_self]
  refine ⟨⟨q', hq', h0'⟩, ?_, ?_, ?_, ?_⟩
  · show s'.curid 0 ≠ 0
    omega
  · show s'.state 0 ≠ .sleep
    rw [hst, update_of_ne (by omega), update_of_ne h.cur.symm]
    exact h.zero
  · intro a ha ha' hdead
    change s'.state a ≠ .dead at hdead
    by_cases hat : a = t
    · exact hat ▸ hsp
    by_cases hac : a = d.s.curid 0
    · exact (h.mem_spawned hq h0 (by simp [hac])).2.2
    rw [hst, update_of_ne hat, update_of_ne hac] at hdead
    exact h.known a ha ha' hdead
  · intro a ha
    rcases mem_cons.mp ha with rfl | ha
    · exact ⟨hcur0 ▸ hlt, hcur0 ▸ hsp⟩
    · exact h.dequeued a ha

theorem yield (h : Inv d) : Inv d.yield := by
  obtain ⟨q, hq, h0⟩ := h.sched
  obtain ⟨t, l, hl⟩ := exists_cons_of_ne_nil (l := q 0 ++ [d.s.curid 0]) (by simp)
  obtain ⟨hq', hcur, hst, -⟩ := hq.threadYield_next (by decide) (fun _ => rfl) hl
  refine h.switch hq h0 (by rw [hl]; simp) hq' ?_ hcur hst
  intro c hc
  by_cases he : c = 0
  · subst he
    rw [update_self] at hc
    have hm : 0 ∈ q 0 ++ [d.s.curid 0] := by rw [hl]; simp [hc]
    rcases mem_append.mp hm with hm | hm
    · exact h0 0 hm
    · exact h.cur (mem_singleton.mp hm).symm
  · rw [update_of_ne he] at hc
    exact h0 c hc

theorem sleep (h : Inv d) (hne : d.s.readyQueue 0 ≠ []) (chan : ℕ) : Inv (d.sleep chan) := by
  obtain ⟨q, hq, h0⟩ := h.sched
  rw [hq.queues.readyQueue] at hne
  obtain ⟨t, l, hl⟩ := exists_cons_of_ne_nil hne
  obtain ⟨hq', hcur, hst, -⟩ := hq.threadSleep_next (by decide) hl chan
  refine h.switch hq h0 (by rw [hl]; simp) hq' ?_ hcur hst
  intro c hc
  by_cases he : c = 0
  · subst he
    rw [update_self] at hc
    exact h0 0 (by rw [hl]; simp [hc])
  · rw [update_of_ne he] at hc
    exact h0 c hc

theorem threadWakeup (h : Inv d) (chan : ℕ) : Inv (d.threadWakeup chan) := by
  obtain ⟨q, hq, h0⟩ := h.sched
  obtain ⟨q', hq', hkeep⟩ := hq.threadWakeup (c := 0) (by decide) chan
  have hz : ¬ d.s.SleepsOn 0 chan := fun hs => h.zero hs.1
  refine ⟨⟨q', hq', fun c hc => h0 c ((hkeep 0 hz c).mp hc)⟩, ?_, ?_, ?_, h.dequeued⟩
  · show (d.s.threadWakeup 0 chan).curid 0 ≠ 0
    rw [Sched.threadWakeup_curid]
    exact h.cur
  · show (d.s.threadWakeup 0 chan).state 0 ≠ .sleep
    rw [(Sched.threadWakeup_other hz 0).1]
    exact h.zero
  · intro a ha ha' hdead
    change (d.s.threadWakeup 0 chan).state a ≠ .dead at hdead
    refine h.known a ha ha' ?_
    by_cases hs : d.s.SleepsOn a chan
    · rw [hs.1]
      simp
    · rwa [(Sched.threadWakeup_other hs 0).1] at hdead

theorem sleepReturn (h : Inv d) : Inv { d with s := d.s.threadSleepReturn 0 } := by
  obtain ⟨q, hq, h0⟩ := h.sched
  exact ⟨⟨q, hq.tcbSetChan _ _, h0⟩, h.cur, h.zero, h.known, h.dequeued⟩

theorem spawn (h : Inv d) {pid : ℕ} (hp : 1 ≤ pid) (hp' : pid < numIds)
    (hd : d.s.state pid = .dead) : Inv (d.spawn pid) := by
  obtain ⟨q, hq, h0⟩ := h.sched
  have hstate : (d.s.threadSpawn 0 pid).state = update d.s.state pid .ready :=
    Sched.threadSpawn_state ..
  refine ⟨⟨_, hq.threadSpawn (by decide) hp hp' hd, ?_⟩, ?_, ?_, ?_, ?_⟩
  · intro c hc
    by_cases he : c = 0
    · subst he
      rw [update_self] at hc
      rcases mem_append.mp hc with hc | hc
      · exact h0 0 hc
      · have := mem_singleton.mp hc
        omega
    · rw [update_of_ne he] at hc
      exact h0 c hc
  · show ((d.s.tcbSetState pid .ready).tqueueEnqueue 0 numIds pid).curid 0 ≠ 0
    rw [Sched.tqueueEnqueue_curid]
    exact h.cur
  · show (d.s.threadSpawn 0 pid).state 0 ≠ .sleep
    rw [hstate, update_of_ne (by omega)]
    exact h.zero
  · intro a ha ha' hdead
    change (d.s.threadSpawn 0 pid).state a ≠ .dead at hdead
    show a ∈ pid :: d.spawned
    by_cases hap : a = pid
    · simp [hap]
    · rw [hstate, update_of_ne hap] at hdead
      exact mem_cons_of_mem _ (h.known a ha ha' hdead)
  · intro a ha
    exact ⟨(h.dequeued a ha).1, mem_cons_of_mem _ (h.dequeued a ha).2⟩

/-! ### System calls -/

variable {N : ℕ} {sendCv recvCv : ℕ → ℕ} {o : Outcome}

theorem setLoop (h : Inv d) (w : Option IpcLoop) : Inv (d.setLoop w) := h.congr rfl rfl rfl

theorem sendLoop (h : Inv d) (hs : d.sendLoop N recvCv = some o) : Inv o.state := by
  obtain ⟨r, -, rfl⟩ := Option.map_eq_some_iff.mp hs
  split
  · exact h.setLoop _
  · exact h.setLoop _

theorem recvLoop (h : Inv d) {sendPid : ℕ} (hs : d.recvLoop N sendCv recvCv sendPid = some o) :
    Inv o.state := by
  obtain ⟨r, -, rfl⟩ := Option.map_eq_some_iff.mp hs
  split
  · exact h.setLoop _
  · have h1 : Inv { d with ipc := Ipc.msgRemove N d.ipc sendPid } := h.congr rfl rfl rfl
    exact (h1.threadWakeup _).setLoop _

theorem enter (h : Inv d) {c : IpcCall} (hs : d.enter N sendCv recvCv c = some o) :
    Inv o.state := by
  cases c with
  | send recvPid userAddr length =>
    refine sendLoop (threadWakeup ?_ _) hs
    exact h.congr rfl rfl rfl
  | recv sendPid => exact h.recvLoop hs

theorem resume (h : Inv d) {w : IpcLoop} (hs : d.resume N sendCv recvCv w = some o) :
    Inv o.state := by
  cases w with
  | send => exact h.sleepReturn.sendLoop hs
  | recv sendPid => exact h.sleepReturn.recvLoop hs

/-- **Every step keeps the invariant**, if `thread_sleep` and `thread_spawn` are safe. -/
theorem step (h : Inv d) (hs : Step N sendCv recvCv Safe d d') : Inv d' := by
  cases hs with
  | yield => exact h.yield
  | spawn hok => exact h.spawn hok.1 hok.2.1 hok.2.2
  | wakeup => exact h.threadWakeup _
  | sleep _ hok => exact h.sleep hok _
  | sleepReturn _ => exact h.sleepReturn
  | ipcReturn _ hs => exact h.enter hs
  | ipcSleep _ hs hok => exact (h.enter hs).sleep hok _
  | resumeReturn _ hs => exact h.resume hs
  | resumeSleep _ hs hok => exact (h.resume hs).sleep hok _

theorem kernMain {idle ding : ℕ} (hi : 1 ≤ idle ∧ idle < numIds) (hd : 1 ≤ ding ∧ ding < numIds)
    (hne : idle ≠ ding) : Inv (kernMain N idle ding) := by
  refine ⟨⟨_, Sched.inv_kernMain hi.1 hi.2 hd.1 hd.2 hne 0, ?_⟩, ?_, ?_, ?_, ?_⟩
  · intro c hc
    rw [update_apply] at hc
    split at hc
    · have := mem_singleton.mp hc
      omega
    · simp at hc
  · show ding ≠ 0
    omega
  · exact Sched.kernMain_awake idle ding 0
  · intro t ht _ hdead
    change (Sched.kernMain idle ding).state t ≠ .dead at hdead
    show t ∈ [ding, idle]
    by_contra hno
    obtain ⟨hd', hi'⟩ : t ≠ ding ∧ t ≠ idle := by simpa using hno
    rw [Sched.kernMain_state, update_of_ne hd', update_of_ne hd', update_of_ne hi'] at hdead
    have hz : t ≠ 0 := by omega
    exact hdead (by simp [Sched.threadInit, hz])
  · intro t ht
    exact absurd ht not_mem_nil

end Inv

/-- **The scheduler only switches to spawned threads**, in every run in which `thread_sleep`
finds a ready thread and `thread_spawn` a free id. -/
theorem dequeued_spawned {N : ℕ} {sendCv recvCv : ℕ → ℕ} {idle ding : ℕ}
    (hi : 1 ≤ idle ∧ idle < numIds) (hd : 1 ≤ ding ∧ ding < numIds) (hne : idle ≠ ding)
    {d : Dispatch} (hr : Reachable N sendCv recvCv Safe idle ding d) :
    ∀ t ∈ d.dequeued, t < numIds ∧ t ∈ d.spawned := by
  have hinv : Inv d := by
    induction hr with
    | refl => exact Inv.kernMain hi hd hne
    | tail _ hs ih => exact ih.step hs
  exact hinv.dequeued

/-- The running process yields, and the other one waits for a message. -/
theorem dequeued_spawned_receive : ∃ d, Reachable numIds (2 * · + 1) (2 * · + 2) Safe 1 2 d ∧
    d.dequeued = [2, 1] ∧ ∀ t ∈ d.dequeued, t < numIds ∧ t ∈ d.spawned := by
  have h₁ : Reachable numIds (2 * · + 1) (2 * · + 2) Safe 1 2 _ :=
    ReflTransGen.refl.tail .yield
  have h₂ := h₁.tail (.ipcSleep (c := .recv 2) rfl rfl (by decide +kernel))
  exact ⟨_, h₂, by decide +kernel, dequeued_spawned (by decide) (by decide) (by decide) h₂⟩

/-- **Everybody waits.**  Both processes of `kern_main` call `sys_sync_recv`; the second finds
no ready thread and switches to `NUM_IDS`. -/
theorem all_receiving : ∃ d, Reachable numIds (2 * · + 1) (2 * · + 2) (fun _ _ => True) 1 2 d ∧
    numIds ∈ d.dequeued ∧ d.s.curid 0 = numIds := by
  have h₁ : Reachable numIds (2 * · + 1) (2 * · + 2) (fun _ _ => True) 1 2 _ :=
    ReflTransGen.refl.tail (.ipcSleep (c := .recv 1) rfl rfl trivial)
  have h₂ := h₁.tail (.ipcSleep (c := .recv 2) rfl rfl trivial)
  exact ⟨_, h₂, by decide +kernel, by decide +kernel⟩

end Dispatch

end Mcertikos
