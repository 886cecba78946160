/-
Synchronous IPC (`sys_sync_send` and `sys_sync_recv` of `TSyscall.c`).

Every process runs its calls one after the other.  Between two points where it
gives up `msg_lock` a call is one atomic step: it ends by returning or by going
to sleep in `thread_sleep`, from which a `thread_wakeup` on its channel makes it
ready to take the lock and test its loop condition again.  `NUM_IDS` is one
constant `N`.

The state also keeps the history: the sends made so far, numbered in their
order, the completed receives with the number of the send each one consumed,
and the numbers of the sends that have returned.

* `Sync.Inv` — what holds between steps: the blocked senders whose message is not
  consumed are exactly the queue, and their blocks still hold the message;
* `inv_of_run` — it holds in every reachable state.

Design notes: `send_pid` is not checked by `sys_sync_recv`, and the address it
sleeps on is computed from it, so a sleeper may be woken by an unrelated call;
the model lets any sleeper become ready at any time.
-/
import Mcertikos.Ipc.Queue
import Mcertikos.Vmm.UserCopy

namespace Mcertikos

open List Relation Function Ring

/-! ### Copying the message -/

/-- `MSG_BUF_SIZE`. -/
def msgBufSize : ℕ := 100

/-- The loop of `ipc_copy`; every round copies at least one byte. -/
def ipcCopyLoop (msgBuf destPid sourcePid : ℕ) : ℕ → Vm → ℕ → ℕ → ℕ → Vm
  | 0, s, _, _, _ => s
  | k + 1, s, destUserAddr, sourceUserAddr, length =>
    if length = 0 then s
    else
      let len := if length < msgBufSize then length else msgBufSize
      let s₁ := (s.ptCopyin sourcePid sourceUserAddr msgBuf len).2.1
      let s₂ := (s₁.ptCopyout msgBuf destPid destUserAddr len).2.1
      ipcCopyLoop msgBuf destPid sourcePid k s₂ ((destUserAddr + len) % 2 ^ 32)
        ((sourceUserAddr + len) % 2 ^ 32) (length - len)

/-- `ipc_copy`: `length` is an `int`, and nothing is copied if it is negative. -/
def ipcCopy (msgBuf : ℕ) (s : Vm) (destPid destUserAddr sourcePid sourceUserAddr length : ℕ) : Vm :=
  if length < 2 ^ 31 then
    ipcCopyLoop msgBuf destPid sourcePid length s destUserAddr sourceUserAddr length
  else s

/-! ### Threads -/

/-- The loop a process waits in.  `sid` is the number of the send. -/
inductive Waiting where
  | send (sid : ℕ)
  | recv (sendPid userRecvAddr recvLength : ℕ)
  deriving DecidableEq, Repr

/-- A process is outside of the two calls, asleep in `thread_sleep`, or woken up
and about to take `msg_lock` again. -/
inductive Thread where
  | user
  | asleep (w : Waiting)
  | ready (w : Waiting)
  deriving DecidableEq, Repr

/-- The channels, `&msgBlock[i].send_cv` and `&msgBlock[i].recv_cv`. -/
inductive Chan where
  | sendCv (i : ℕ)
  | recvCv (i : ℕ)
  deriving DecidableEq, Repr

/-- The channel process `p` sleeps on. -/
def Waiting.chan (p : ℕ) : Waiting → Chan
  | .send _ => .recvCv p
  | .recv sendPid _ _ => .sendCv sendPid

/-- The number of the send a process is in. -/
def Thread.sending : Thread → Option ℕ
  | .user => none
  | .asleep (.send sid) => some sid
  | .ready (.send sid) => some sid
  | .asleep (.recv _ _ _) => none
  | .ready (.recv _ _ _) => none

/-- `thread_wakeup`. -/
def threadWakeup (N : ℕ) (threads : ℕ → Thread) (c : Chan) : ℕ → Thread := fun p =>
  match threads p with
  | .asleep w => if 1 ≤ p ∧ p < N ∧ w.chan p = c then .ready w else .asleep w
  | t => t

/-! ### The system -/

/-- A call of `sys_sync_send`. -/
structure Send where
  sender : ℕ
  recvPid : ℕ
  bufferAddr : ℕ
  length : ℕ
  deriving DecidableEq, Repr

/-- A completed call of `sys_sync_recv`: its arguments, the sender's buffer as
passed to `ipc_copy`, the return value, and the send it took the message from. -/
structure Recv where
  receiver : ℕ
  sendPid : ℕ
  recvLength : ℕ
  bufferAddr : ℕ
  length : ℕ
  copyLength : ℕ
  send : Option ℕ
  deriving DecidableEq, Repr

/-- The receive took its data from the send `m`, made by the process it named and
addressed to it. -/
def Recv.Took (r : Recv) (m : Send) : Prop :=
  m.sender = r.sendPid ∧ m.recvPid = r.receiver ∧ m.bufferAddr = r.bufferAddr ∧
    m.length = r.length ∧ r.copyLength = min m.length r.recvLength

/-- The kernel's data, the threads, and the history. -/
structure Sync where
  ipc : Ipc
  vm : Vm
  threads : ℕ → Thread
  sends : List Send
  recvs : List Recv
  returned : List ℕ

namespace Sync

-- `NUM_IDS` and the address of `msg_buf`
variable (N msgBuf : ℕ)

def init (vm : Vm) : Sync where
  ipc := Ipc.ipcInit N
  vm := vm
  threads := fun _ => .user
  sends := []
  recvs := []
  returned := []

def setThread (σ : Sync) (p : ℕ) (t : Thread) : Sync :=
  { σ with threads := update σ.threads p t }

/-- The loop of `sys_sync_send`, from a test of its condition on. -/
def sendWait (σ : Sync) (p sid : ℕ) : Option Sync :=
  (Ipc.msgGetBlockBySendID N σ.ipc p).map fun r =>
    if r ≠ N then σ.setThread p (.asleep (.send sid))
    else { σ.setThread p .user with returned := sid :: σ.returned }

/-- `sys_sync_send` from its start. -/
def sysSyncSend (σ : Sync) (p recvPid userAddr length : ℕ) : Option Sync :=
  sendWait N
    { σ with
      ipc := Ipc.msgEnqueue N (σ.ipc.setMessage p recvPid userAddr length) p
      threads := threadWakeup N σ.threads (.sendCv p)
      sends := σ.sends ++ [⟨p, recvPid, userAddr, length⟩] }
    p σ.sends.length

/-- `sys_sync_recv`, from a test of its loop condition on. -/
def sysSyncRecv (σ : Sync) (p sendPid userRecvAddr recvLength : ℕ) : Option Sync :=
  (Ipc.msgGetBlockBySendID N σ.ipc sendPid).map fun r =>
    if r = N ∨ (σ.ipc.msgBlock sendPid).recvPid ≠ p then
      σ.setThread p (.asleep (.recv sendPid userRecvAddr recvLength))
    else
      let userSendAddr := (σ.ipc.msgBlock sendPid).bufferAddr
      let sendLength := (σ.ipc.msgBlock sendPid).length
      let copyLength := if sendLength < recvLength then sendLength else recvLength
      { σ with
        ipc := Ipc.msgRemove N σ.ipc sendPid
        vm := ipcCopy msgBuf σ.vm p userRecvAddr sendPid userSendAddr copyLength
        threads := update (threadWakeup N σ.threads (.recvCv sendPid)) p .user
        recvs := ⟨p, sendPid, recvLength, userSendAddr, sendLength, copyLength,
          (σ.threads sendPid).sending⟩ :: σ.recvs }

/-- One step of process `p`. -/
inductive Step : Sync → Sync → Prop
  | send {σ σ' : Sync} {p recvPid userAddr length : ℕ} (hp : 1 ≤ p) (hpN : p < N)
      (ht : σ.threads p = .user) (h : sysSyncSend N σ p recvPid userAddr length = some σ') :
      Step σ σ'
  | recv {σ σ' : Sync} {p sendPid userRecvAddr recvLength : ℕ} (hp : 1 ≤ p) (hpN : p < N)
      (ht : σ.threads p = .user)
      (h : sysSyncRecv N msgBuf σ p sendPid userRecvAddr recvLength = some σ') : Step σ σ'
  | sendAgain {σ σ' : Sync} {p sid : ℕ} (ht : σ.threads p = .ready (.send sid))
      (h : sendWait N σ p sid = some σ') : Step σ σ'
  | recvAgain {σ σ' : Sync} {p sendPid userRecvAddr recvLength : ℕ}
      (ht : σ.threads p = .ready (.recv sendPid userRecvAddr recvLength))
      (h : sysSyncRecv N msgBuf σ p sendPid userRecvAddr recvLength = some σ') : Step σ σ'
  | wake {σ : Sync} {p : ℕ} {w : Waiting} (ht : σ.threads p = .asleep w) :
      Step σ (σ.setThread p (.ready w))

/-! ### The invariant -/

/-- The sends consumed so far, one entry for every completed receive. -/
def consumed (σ : Sync) : List (Option ℕ) := σ.recvs.map Recv.send

/-- The message in the block of process `p`. -/
def message (σ : Sync) (p : ℕ) : Send :=
  ⟨p, (σ.ipc.msgBlock p).recvPid, (σ.ipc.msgBlock p).bufferAddr, (σ.ipc.msgBlock p).length⟩

/-- The invariant, for the queue `q`. -/
structure Inv (σ : Sync) (q : List ℕ) : Prop where
  ring : IsRing (σ.ipc.links N) N q
  ids : ∀ i ∈ q, 1 ≤ i ∧ i < N
  sendPid : ∀ i, (σ.ipc.msgBlock i).sendPid = i
  queued : ∀ p ∈ q, ∃ sid, (σ.threads p).sending = some sid ∧ some sid ∉ σ.consumed ∧
    σ.sends[sid]? = some (σ.message p)
  unqueued : ∀ p sid, (σ.threads p).sending = some sid → p ∉ q → some sid ∈ σ.consumed
  took : ∀ r ∈ σ.recvs, ∃ sid m, r.send = some sid ∧ σ.sends[sid]? = some m ∧ r.Took m
  once : σ.consumed.Nodup
  returned : ∀ sid ∈ σ.returned, some sid ∈ σ.consumed

variable {N msgBuf} {σ σ' : Sync} {q : List ℕ} {p : ℕ}

@[simp] theorem sending_threadWakeup (threads : ℕ → Thread) (c : Chan) (p : ℕ) :
    (threadWakeup N threads c p).sending = (threads p).sending := by
  unfold threadWakeup
  cases threads p with
  | user | ready => rfl
  | asleep w =>
    dsimp only
    split
    · cases w <;> rfl
    · rfl

theorem message_eq (σ : Sync) (p : ℕ) :
    σ.message p = ⟨p, (σ.ipc.msgBlock p).data.2.1, (σ.ipc.msgBlock p).data.2.2.2,
      (σ.ipc.msgBlock p).data.2.2.1⟩ := rfl

theorem inv_init (vm : Vm) : Inv N (init N vm) [] where
  ring := Ipc.ring_ipcInit
  ids := nofun
  sendPid := fun _ => rfl
  queued := nofun
  unqueued := fun p sid h _ => by cases h
  took := nofun
  once := nodup_nil
  returned := nofun

/-- The search of a process in the queue, in a state with the invariant. -/
theorem Inv.search (h : Inv N σ q) (hN : 0 < N) (pid : ℕ) :
    Ipc.msgGetBlockBySendID N σ.ipc pid = some (if pid ∈ q then pid else N) :=
  Ipc.msgGetBlockBySendID_eq h.ring h.sendPid
    (Ipc.length_lt_of_ids (nodup_cons.mp h.ring.nodup).2 h.ids hN) pid

/-- Changing the thread of `p` without changing what it sends. -/
theorem Inv.setThread (h : Inv N σ q) {t : Thread} (ht : t.sending = (σ.threads p).sending) :
    Inv N (σ.setThread p t) q := by
  have hsend : ∀ i, ((σ.setThread p t).threads i).sending = (σ.threads i).sending := by
    intro i
    by_cases hi : i = p
    · subst hi
      simp [Sync.setThread, ht]
    · simp [Sync.setThread, hi]
  exact
    { h with
      queued := fun i hi => by
        rw [hsend]
        exact h.queued i hi
      unqueued := fun i sid hs => h.unqueued i sid (by rw [← hsend]; exact hs) }

/-- A send number in the history is below its length. -/
theorem Inv.consumed_lt (h : Inv N σ q) {sid : ℕ} (hs : some sid ∈ σ.consumed) :
    sid < σ.sends.length := by
  obtain ⟨r, hr, hrs⟩ := mem_map.mp hs
  obtain ⟨sid', m, hr', hm, _⟩ := h.took r hr
  rw [hr'] at hrs
  obtain rfl := Option.some.inj hrs
  exact (List.getElem?_eq_some_iff.mp hm).1

/-- **Sending.**  The new message goes to the end of the queue, and the sender
falls asleep. -/
theorem Inv.sysSyncSend (h : Inv N σ q) (hN : 0 < N) (hp : 1 ≤ p) (hpN : p < N)
    (ht : σ.threads p = .user) {recvPid userAddr length : ℕ}
    (hs : sysSyncSend N σ p recvPid userAddr length = some σ') : Inv N σ' (q ++ [p]) := by
  have hsending : (σ.threads p).sending = none := by rw [ht]; rfl
  have hpq : p ∉ q := by
    intro hm
    obtain ⟨sid, hsid, _⟩ := h.queued p hm
    rw [hsending] at hsid
    cases hsid
  have hpN' : p ≠ N := by omega
  set ipc' := Ipc.msgEnqueue N (σ.ipc.setMessage p recvPid userAddr length) p with hipc
  have hdata : ∀ i, (ipc'.msgBlock i).data
      = if i = p then (p, recvPid, length, userAddr) else (σ.ipc.msgBlock i).data := by
    intro i
    rw [hipc, Ipc.msgEnqueue_data, Ipc.setMessage_data, h.sendPid]
  -- the state once the sender has fallen asleep
  set σ2 : Sync :=
    { σ with
      ipc := ipc'
      threads := update (threadWakeup N σ.threads (.sendCv p)) p
        (.asleep (.send σ.sends.length))
      sends := σ.sends ++ [⟨p, recvPid, userAddr, length⟩] } with hσ2
  have hthreads : ∀ i, (σ2.threads i).sending
      = if i = p then some σ.sends.length else (σ.threads i).sending := by
    intro i
    by_cases hi : i = p
    · subst hi
      simp [hσ2, Thread.sending]
    · simp [hσ2, hi]
  have hold : ∀ {sid : ℕ} {m : Send}, σ.sends[sid]? = some m → σ2.sends[sid]? = some m := by
    intro sid m hm
    rw [hσ2, getElem?_append_left (List.getElem?_eq_some_iff.mp hm).1]
    exact hm
  have h2 : Inv N σ2 (q ++ [p]) := by
    constructor
    · refine Ipc.ring_msgEnqueue ?_ (by simp [hpN', hpq])
      rw [Ipc.links_setMessage]
      exact h.ring
    · intro i hi
      rcases mem_append.mp hi with hi | hi
      · exact h.ids i hi
      · rw [mem_singleton.mp hi]
        exact ⟨hp, hpN⟩
    · intro i
      have hi := congrArg Prod.fst (hdata i)
      by_cases hip : i = p
      · rw [if_pos hip] at hi
        exact hi.trans hip.symm
      · rw [if_neg hip] at hi
        exact hi.trans (h.sendPid i)
    · intro i hi
      by_cases hip : i = p
      · -- the new send
        refine ⟨σ.sends.length, by rw [hthreads, if_pos hip], fun hc => ?_, ?_⟩
        · exact absurd (h.consumed_lt hc) (lt_irrefl _)
        · rw [message_eq, hdata, if_pos hip, hσ2, getElem?_concat_length, hip]
      · have hiq : i ∈ q := by simpa [hip] using hi
        obtain ⟨sid, hsid, hc, hm⟩ := h.queued i hiq
        refine ⟨sid, by rw [hthreads, if_neg hip, hsid], hc, ?_⟩
        rw [hold hm, message_eq, message_eq, hdata, if_neg hip]
    · intro i sid hsid hi
      have hip : i ≠ p := fun he => hi (by simp [he])
      rw [hthreads, if_neg hip] at hsid
      exact h.unqueued i sid hsid fun hm => hi (by simp [hm])
    · intro r hr
      obtain ⟨sid, m, hrs, hm, htook⟩ := h.took r hr
      exact ⟨sid, m, hrs, hold hm, htook⟩
    · exact h.once
    · exact h.returned
  -- the sender finds itself in the queue
  have hsearch : Ipc.msgGetBlockBySendID N ipc' p = some p :=
    (h2.search hN p).trans (by rw [if_pos (by simp)])
  unfold Sync.sysSyncSend Sync.sendWait at hs
  rw [← hipc] at hs
  simp only [hsearch, Option.map_some, ne_eq, hpN', not_false_eq_true, if_true] at hs
  obtain rfl := Option.some.inj hs
  exact h2

/-- The test in the loop of `sys_sync_send`. -/
theorem Inv.sendWait (h : Inv N σ q) (hN : 0 < N) {sid : ℕ}
    (ht : σ.threads p = .ready (.send sid)) (hs : sendWait N σ p sid = some σ') : Inv N σ' q := by
  unfold Sync.sendWait at hs
  rw [h.search hN, Option.map_some] at hs
  by_cases hq : p ∈ q
  · have hpN : p ≠ N := fun he => by have := (h.ids p hq).2; omega
    rw [if_pos hq, if_pos hpN] at hs
    obtain rfl := Option.some.inj hs
    exact h.setThread (by rw [ht]; rfl)
  · rw [if_neg hq, if_neg (by simp)] at hs
    obtain rfl := Option.some.inj hs
    -- not in the queue any more, so it was consumed
    have hcons : some sid ∈ σ.consumed := h.unqueued p sid (by rw [ht]; rfl) hq
    have hother : ∀ i, i ≠ p → (σ.setThread p .user).threads i = σ.threads i := fun i hi => by
      simp [Sync.setThread, hi]
    have hself : (σ.setThread p .user).threads p = .user := by simp [Sync.setThread]
    exact
      { h with
        queued := fun i hi => by
          obtain ⟨sid', hsid⟩ := h.queued i hi
          have hip : i ≠ p := fun he => hq (he ▸ hi)
          exact ⟨sid', by rw [hother i hip]; exact hsid.1, hsid.2⟩
        unqueued := fun i sid' hs' hi => by
          by_cases hip : i = p
          · subst hip
            rw [hself] at hs'
            cases hs'
          · rw [hother i hip] at hs'
            exact h.unqueued i sid' hs' hi
        returned := fun sid' hs' => by
          rcases mem_cons.mp hs' with rfl | hs'
          · exact hcons
          · exact h.returned sid' hs' }

/-- **Receiving.**  The receive goes to sleep, or it consumes the message of the
process it names, which leaves the queue. -/
theorem Inv.sysSyncRecv (h : Inv N σ q) (hN : 0 < N) (hsending : (σ.threads p).sending = none)
    {sendPid userRecvAddr recvLength : ℕ}
    (hs : sysSyncRecv N msgBuf σ p sendPid userRecvAddr recvLength = some σ') :
    ∃ q', Inv N σ' q' := by
  unfold Sync.sysSyncRecv at hs
  rw [h.search hN, Option.map_some] at hs
  by_cases hgo : sendPid ∈ q ∧ (σ.ipc.msgBlock sendPid).recvPid = p
  · obtain ⟨hq, hto⟩ := hgo
    have hne : sendPid ≠ N := fun he => by have := (h.ids _ hq).2; omega
    rw [if_pos hq, if_neg (by simp [hne, hto])] at hs
    obtain ⟨sid, hsid, hfresh, hmsg⟩ := h.queued sendPid hq
    obtain ⟨q1, q2, rfl⟩ := append_of_mem hq
    obtain rfl := Option.some.inj hs
    have hdata : ∀ i, ((Ipc.msgRemove N σ.ipc sendPid).msgBlock i).data
        = (σ.ipc.msgBlock i).data := Ipc.msgRemove_data σ.ipc sendPid
    have hthreads : ∀ i, (update (threadWakeup N σ.threads (.recvCv sendPid)) p
        Thread.user i).sending = (σ.threads i).sending := by
      intro i
      by_cases hi : i = p
      · rw [hi, update_self, hsending]
        rfl
      · simp [hi]
    have hnd := (nodup_cons.mp h.ring.nodup).2
    have hnot : sendPid ∉ q1 ++ q2 := by
      have := nodup_middle.mp hnd
      exact (nodup_cons.mp this).1
    refine ⟨q1 ++ q2, ?_⟩
    constructor
    · exact Ipc.ring_msgRemove h.ring
    · intro i hi
      exact h.ids i (by simp at hi ⊢; tauto)
    · intro i
      exact (congrArg Prod.fst (hdata i)).trans (h.sendPid i)
    · intro i hi
      have his : i ≠ sendPid := fun he => hnot (he ▸ hi)
      obtain ⟨sid', hsid', hc, hm⟩ := h.queued i (by simp at hi ⊢; tauto)
      refine ⟨sid', by rw [hthreads]; exact hsid', fun hc' => ?_, ?_⟩
      · -- two senders never have the same send number
        rcases mem_cons.mp hc' with he | hc'
        · rw [hsid] at he
          obtain rfl := Option.some.inj he
          rw [hmsg] at hm
          have hsender := congrArg Send.sender (Option.some.inj hm)
          exact his hsender.symm
        · exact hc hc'
      · rw [message_eq, hdata]
        exact hm
    · intro i sid' hs' hi
      rw [hthreads] at hs'
      by_cases his : i = sendPid
      · subst his
        exact mem_cons.mpr (.inl (hs'.symm.trans rfl))
      · refine mem_cons_of_mem _ (h.unqueued i sid' hs' fun hm => hi ?_)
        simp at hm ⊢
        tauto
    · intro r hr
      rcases mem_cons.mp hr with rfl | hr
      · refine ⟨sid, σ.message sendPid, hsid, hmsg, rfl, hto, rfl, rfl, ?_⟩
        dsimp only [message]
        rw [Nat.min_def]
        split_ifs <;> omega
      · exact h.took r hr
    · refine nodup_cons.mpr ⟨?_, h.once⟩
      dsimp only
      rw [hsid]
      exact hfresh
    · intro sid' hs'
      exact mem_cons_of_mem _ (h.returned sid' hs')
  · have hsleep : (if sendPid ∈ q then sendPid else N) = N ∨
        (σ.ipc.msgBlock sendPid).recvPid ≠ p := by
      by_cases hq : sendPid ∈ q
      · exact .inr fun hto => hgo ⟨hq, hto⟩
      · exact .inl (if_neg hq)
    rw [if_pos hsleep] at hs
    obtain rfl := Option.some.inj hs
    exact ⟨q, h.setThread (by rw [hsending]; rfl)⟩

/-! ### Runs -/

theorem inv_step (hN : 0 < N) (h : Inv N σ q) (hstep : Step N msgBuf σ σ') : ∃ q', Inv N σ' q' := by
  cases hstep with
  | send hp hpN ht hs => exact ⟨_, h.sysSyncSend hN hp hpN ht hs⟩
  | recv _ _ ht hs | recvAgain ht hs => exact h.sysSyncRecv hN (by rw [ht]; rfl) hs
  | sendAgain ht hs => exact ⟨q, h.sendWait hN ht hs⟩
  | @wake p w ht =>
    refine ⟨q, h.setThread ?_⟩
    rw [ht]
    cases w <;> rfl

theorem inv_of_run (hN : 0 < N) (vm : Vm)
    (hrun : ReflTransGen (Step N msgBuf) (init N vm) σ) : ∃ q, Inv N σ q := by
  induction hrun with
  | refl => exact ⟨[], inv_init vm⟩
  | tail _ hstep ih =>
    obtain ⟨q, hq⟩ := ih
    exact inv_step hN hq hstep

end Sync

end Mcertikos
