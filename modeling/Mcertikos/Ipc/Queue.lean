/-
The message queue of synchronous IPC (`lib/ipc.c`).

`msgBlock` holds one block per process; the blocks of the waiting senders form
a doubly linked list through their `prev` and `next` fields, with `NUM_IDS` as
the null index and the ends in `msgQueue`.  Seen as a ring with sentinel
`NUM_IDS` (`links`), the operations are the ring's edits:

* `ring_msgEnqueue` — the new block goes to the end;
* `ring_msgRemove` — a block leaves, wherever it stands;
* `msgGetBlockBySendID_eq` — the search ends, and says whether the process is in
  the queue;
* `recvID_lookup_iff` — the search by receiver does not move on, so it ends exactly if
  the queue is empty or the first message is for the receiver.
-/
import Mcertikos.Lib.Ring
import Mathlib.Order.Interval.Finset.Nat

namespace Mcertikos

open List Function Ring

/-- `struct MsgBlock`; the condition variables are only used for their
addresses. -/
structure MsgBlock where
  prev : ℕ
  next : ℕ
  sendPid : ℕ
  recvPid : ℕ
  length : ℕ
  bufferAddr : ℕ
  deriving DecidableEq, Repr

/-- The fields of a block the queue operations do not touch. -/
def MsgBlock.data (b : MsgBlock) : ℕ × ℕ × ℕ × ℕ := (b.sendPid, b.recvPid, b.length, b.bufferAddr)

/-- `msgBlock` and `msgQueue`. -/
structure Ipc where
  msgBlock : ℕ → MsgBlock
  head : ℕ
  tail : ℕ

namespace Ipc

-- `NUM_IDS`
variable (N : ℕ)

def ipcInit : Ipc where
  msgBlock := fun i => ⟨N, N, i, N, 0, 0⟩
  head := N
  tail := N

/-- `msgBlock[i].prev = v`. -/
def setPrev (s : Ipc) (i v : ℕ) : Ipc :=
  { s with msgBlock := update s.msgBlock i { s.msgBlock i with prev := v } }

/-- `msgBlock[i].next = v`. -/
def setNext (s : Ipc) (i v : ℕ) : Ipc :=
  { s with msgBlock := update s.msgBlock i { s.msgBlock i with next := v } }

/-- The message fields of a block, as `sys_sync_send` fills them in. -/
def setMessage (s : Ipc) (i recvPid bufferAddr length : ℕ) : Ipc :=
  { s with
    msgBlock := update s.msgBlock i
      { s.msgBlock i with recvPid := recvPid, bufferAddr := bufferAddr, length := length } }

def msgEnqueue (s : Ipc) (sendPid : ℕ) : Ipc :=
  let tail := s.tail
  if tail = N then
    { (s.setPrev sendPid N).setNext sendPid N with tail := sendPid, head := sendPid }
  else
    { ((s.setNext tail sendPid).setPrev sendPid tail).setNext sendPid N with tail := sendPid }

def msgRemove (s : Ipc) (sendPid : ℕ) : Ipc :=
  let prev := (s.msgBlock sendPid).prev
  let next := (s.msgBlock sendPid).next
  let s₁ :=
    if prev = N then
      if next = N then { s with head := N, tail := N }
      else { s with head := next }.setPrev next N
    else
      if next = N then { s with tail := prev }.setNext prev N
      else (s.setNext prev next).setPrev next prev
  (s₁.setNext sendPid N).setPrev sendPid N

/-- The list fields as links, `head` and `tail` being those of the null index. -/
def links (s : Ipc) : Links ℕ where
  prev := fun i => if i = N then s.tail else (s.msgBlock i).prev
  next := fun i => if i = N then s.head else (s.msgBlock i).next

/-- `msg_getBlockBySendID`: the loop runs along `next` from `head`; `none` if it
has not ended after `NUM_IDS` rounds. -/
def msgGetBlockBySendID (s : Ipc) (sendPid : ℕ) : Option ℕ :=
  (scan (s.links N).next N (fun pid => (s.msgBlock pid).sendPid = sendPid) N s.head).map
    fun pid => if pid = N then N else sendPid

variable {N} {s : Ipc} {q q₁ q₂ : List ℕ} {pid : ℕ}

theorem ring_ipcInit : IsRing ((ipcInit N).links N) N [] := by
  refine ⟨by simp, ?_⟩
  rw [nil_append, isChain_pair]
  exact ⟨if_pos rfl, if_pos rfl⟩

/-! ### Field lemmas -/

section

variable (s)

@[simp] theorem setPrev_prev (i v j : ℕ) :
    ((s.setPrev i v).msgBlock j).prev = if j = i then v else (s.msgBlock j).prev := by
  by_cases h : j = i
  · subst h
    simp [setPrev]
  · simp [setPrev, h]

@[simp] theorem setPrev_next (i v j : ℕ) :
    ((s.setPrev i v).msgBlock j).next = (s.msgBlock j).next := by
  by_cases h : j = i
  · subst h
    simp [setPrev]
  · simp [setPrev, h]

@[simp] theorem setNext_next (i v j : ℕ) :
    ((s.setNext i v).msgBlock j).next = if j = i then v else (s.msgBlock j).next := by
  by_cases h : j = i
  · subst h
    simp [setNext]
  · simp [setNext, h]

@[simp] theorem setNext_prev (i v j : ℕ) :
    ((s.setNext i v).msgBlock j).prev = (s.msgBlock j).prev := by
  by_cases h : j = i
  · subst h
    simp [setNext]
  · simp [setNext, h]

@[simp] theorem setPrev_data (i v j : ℕ) :
    ((s.setPrev i v).msgBlock j).data = (s.msgBlock j).data := by
  by_cases h : j = i
  · subst h
    simp [setPrev, MsgBlock.data]
  · simp [setPrev, h]

@[simp] theorem setNext_data (i v j : ℕ) :
    ((s.setNext i v).msgBlock j).data = (s.msgBlock j).data := by
  by_cases h : j = i
  · subst h
    simp [setNext, MsgBlock.data]
  · simp [setNext, h]

@[simp] theorem setPrev_head (i v : ℕ) : (s.setPrev i v).head = s.head := rfl

@[simp] theorem setPrev_tail (i v : ℕ) : (s.setPrev i v).tail = s.tail := rfl

@[simp] theorem setNext_head (i v : ℕ) : (s.setNext i v).head = s.head := rfl

@[simp] theorem setNext_tail (i v : ℕ) : (s.setNext i v).tail = s.tail := rfl

theorem setMessage_data (i r a n j : ℕ) : ((s.setMessage i r a n).msgBlock j).data
      = if j = i then ((s.msgBlock i).sendPid, r, n, a) else (s.msgBlock j).data := by
  by_cases h : j = i
  · subst h
    simp [setMessage, MsgBlock.data]
  · simp [setMessage, h]

@[simp] theorem links_setMessage (i r a n : ℕ) : (s.setMessage i r a n).links N = s.links N := by
  have hblock : ∀ j, ((s.setMessage i r a n).msgBlock j).prev = (s.msgBlock j).prev ∧
      ((s.setMessage i r a n).msgBlock j).next = (s.msgBlock j).next := by
    intro j
    by_cases h : j = i
    · subst h
      simp [setMessage]
    · simp [setMessage, h]
  have hends : (s.setMessage i r a n).head = s.head ∧ (s.setMessage i r a n).tail = s.tail :=
    ⟨rfl, rfl⟩
  simp only [links, hblock, hends]

/-! ### The ring edits -/

/-- `next` after `msg_enqueue`, of the null index and all blocks. -/
theorem msgEnqueue_next (hpid : pid ≠ N) (a : ℕ) : ((msgEnqueue N s pid).links N).next a
      = if a = pid then N else if a = (s.links N).prev N then pid else (s.links N).next a := by
  have htail : (s.links N).prev N = s.tail := if_pos rfl
  rw [htail]
  by_cases ht : s.tail = N
  · by_cases ha : a = N <;> by_cases hap : a = pid <;> simp_all [msgEnqueue, links]
  · by_cases ha : a = N <;> by_cases hap : a = pid <;> simp_all [msgEnqueue, links, Ne.symm ht]

/-- `prev` after `msg_enqueue`. -/
theorem msgEnqueue_prev (hpid : pid ≠ N) (a : ℕ) : ((msgEnqueue N s pid).links N).prev a
      = if a = N then pid else if a = pid then (s.links N).prev N else (s.links N).prev a := by
  have htail : (s.links N).prev N = s.tail := if_pos rfl
  rw [htail]
  by_cases ht : s.tail = N <;> by_cases ha : a = N <;> by_cases hap : a = pid <;>
    simp_all [msgEnqueue, links]

end

theorem ring_msgEnqueue (hr : IsRing (s.links N) N q) (hpid : pid ∉ N :: q) :
    IsRing ((msgEnqueue N s pid).links N) N (q ++ [pid]) := by
  have hN : pid ≠ N := fun he => hpid (by simp [he])
  have htail : (s.links N).prev N ≠ pid := fun he => hpid (he ▸ hr.prev_mem)
  refine hr.insert_back hpid ?_ ?_ ?_ ?_ ?_ ?_
  · rw [msgEnqueue_prev s hN, if_pos rfl]
  · rw [msgEnqueue_next s hN, if_pos rfl]
  · rw [msgEnqueue_prev s hN, if_neg hN, if_pos rfl]
  · rw [msgEnqueue_next s hN, if_neg htail, if_pos rfl]
  · intro a haN hap
    rw [msgEnqueue_prev s hN, if_neg haN, if_neg hap]
  · intro a hat hap
    rw [msgEnqueue_next s hN, if_neg hap, if_neg hat]

/-- `next` after `msg_remove`, of the null index and the other blocks. -/
theorem msgRemove_next (s : Ipc) {a : ℕ} (hap : a ≠ pid) : ((msgRemove N s pid).links N).next a
      = if a = (s.msgBlock pid).prev then (s.msgBlock pid).next else (s.links N).next a := by
  by_cases hp : (s.msgBlock pid).prev = N
  · by_cases hn : (s.msgBlock pid).next = N <;> by_cases ha : a = N <;>
      simp [msgRemove, links, hp, hn, ha, hap]
  · by_cases hn : (s.msgBlock pid).next = N <;> by_cases ha : a = N <;>
      simp [msgRemove, links, hp, hn, ha, hap, Ne.symm hp]

/-- `prev` after `msg_remove`, of the null index and the other blocks. -/
theorem msgRemove_prev (s : Ipc) {a : ℕ} (hap : a ≠ pid) : ((msgRemove N s pid).links N).prev a
      = if a = (s.msgBlock pid).next then (s.msgBlock pid).prev else (s.links N).prev a := by
  by_cases hn : (s.msgBlock pid).next = N
  · by_cases hp : (s.msgBlock pid).prev = N <;> by_cases ha : a = N <;>
      simp [msgRemove, links, hp, hn, ha, hap]
  · by_cases hp : (s.msgBlock pid).prev = N <;> by_cases ha : a = N <;>
      simp [msgRemove, links, hp, hn, ha, hap, Ne.symm hn]

theorem msgRemove_self (s : Ipc) (hpid : pid ≠ N) :
    ((msgRemove N s pid).links N).next pid = N ∧ ((msgRemove N s pid).links N).prev pid = N := by
  simp [msgRemove, links, hpid]

theorem ring_msgRemove (hr : IsRing (s.links N) N (q₁ ++ pid :: q₂)) :
    IsRing ((msgRemove N s pid).links N) N (q₁ ++ q₂) := by
  have hN : pid ≠ N := by
    rintro rfl
    exact (nodup_cons.mp hr.nodup).1 (by simp)
  have hprev : (s.links N).prev pid = (s.msgBlock pid).prev := if_neg hN
  have hnext : (s.links N).next pid = (s.msgBlock pid).next := if_neg hN
  obtain ⟨hx, hz⟩ := hr.neighbours_ne
  rw [hprev] at hx
  rw [hnext] at hz
  refine hr.unlink ?_ ?_ ?_ ?_
  · rw [hprev, hnext, msgRemove_next s hx, if_pos rfl]
  · rw [hprev, hnext, msgRemove_prev s hz, if_pos rfl]
  · intro a ha hap
    rw [msgRemove_next s hap, if_neg (by rw [← hprev]; exact ha)]
  · intro a ha hap
    rw [msgRemove_prev s hap, if_neg (by rw [← hnext]; exact ha)]

/-! ### What stays -/

theorem msgEnqueue_data (s : Ipc) (pid i : ℕ) :
    ((msgEnqueue N s pid).msgBlock i).data = (s.msgBlock i).data := by
  by_cases ht : s.tail = N <;> simp [msgEnqueue, ht]

theorem msgRemove_data (s : Ipc) (pid i : ℕ) :
    ((msgRemove N s pid).msgBlock i).data = (s.msgBlock i).data := by
  by_cases hp : (s.msgBlock pid).prev = N <;> by_cases hn : (s.msgBlock pid).next = N <;>
    simp [msgRemove, hp, hn]

/-! ### The search -/

/-- A queue of process ids is shorter than `NUM_IDS`. -/
theorem length_lt_of_ids (hnd : q.Nodup) (hq : ∀ i ∈ q, 1 ≤ i ∧ i < N) (hN : 0 < N) :
    q.length < N := by
  have hsub : q.toFinset ⊆ Finset.Ico 1 N := fun i hi => by
    rw [Finset.mem_Ico]
    exact hq i (mem_toFinset.mp hi)
  have hcard := Finset.card_le_card hsub
  rw [toFinset_card_of_nodup hnd, Nat.card_Ico] at hcard
  omega

/-- The answer of the search from the blocks it passes, each with its own id. -/
theorem answer_of_find (hid : ∀ i ∈ q, (s.msgBlock i).sendPid = i) (hN : N ∉ q) (pid : ℕ) :
    (if (q.find? fun i => decide ((s.msgBlock i).sendPid = pid)).getD N = N then N else pid)
      = if pid ∈ q then pid else N := by
  by_cases hm : pid ∈ q
  · -- the only match is the block of the process
    have hsome : (q.find? fun i => decide ((s.msgBlock i).sendPid = pid)).isSome = true :=
      find?_isSome.mpr ⟨pid, hm, by simp [hid pid hm]⟩
    obtain ⟨i, hi⟩ := Option.isSome_iff_exists.mp hsome
    have hne : i ≠ N := ne_of_mem_of_not_mem (mem_of_find?_eq_some hi) hN
    rw [hi, Option.getD_some, if_neg hne, if_pos hm]
  · have hfind : (q.find? fun i => decide ((s.msgBlock i).sendPid = pid)) = none := by
      rw [find?_eq_none]
      intro i hi hip
      rw [hid i hi, decide_eq_true_eq] at hip
      exact hm (hip ▸ hi)
    rw [hfind, Option.getD_none, if_pos rfl, if_neg hm]

/-- **`msg_getBlockBySendID` ends and says whether the process is in the queue.** -/
theorem msgGetBlockBySendID_eq (hr : IsRing (s.links N) N q) (hid : ∀ i, (s.msgBlock i).sendPid = i)
    (hlen : q.length < N) (pid : ℕ) :
    msgGetBlockBySendID N s pid = some (if pid ∈ q then pid else N) := by
  have hhead : (s.links N).next N = s.head := if_pos rfl
  have hscan := hr.scan (fun i => decide ((s.msgBlock i).sendPid = pid)) hlen
  rw [hhead] at hscan
  unfold msgGetBlockBySendID
  rw [hscan, Option.map_some, answer_of_find (fun i _ => hid i) (nodup_cons.mp hr.nodup).1]

/-! ### The search by receiver -/

variable (N)

/-- The loop of `msg_getBlockByRecvID`, in at most `k` rounds: `pid` is not changed. -/
def recvIDLoop (s : Ipc) (recvPid : ℕ) : ℕ → ℕ → Option ℕ
  | 0, _ => none
  | k + 1, pid =>
    if pid = N then some N
    else if (s.msgBlock pid).recvPid = recvPid then some (s.msgBlock pid).sendPid
    else recvIDLoop s recvPid k pid

/-- `msg_getBlockByRecvID` returns `r`. -/
def MsgGetBlockByRecvID (s : Ipc) (recvPid r : ℕ) : Prop :=
  ∃ k, recvIDLoop N s recvPid k s.head = some r

/-- The first sender in the order of the queue whose message is for `recvPid`. -/
def firstFor (s : Ipc) (q : List ℕ) (recvPid : ℕ) : ℕ :=
  (q.find? fun i => (s.msgBlock i).recvPid = recvPid).getD N

/-- The states of the queue: messages are filled in, processes enter and leave. -/
inductive QueueState : Ipc → List ℕ → Prop
  | init : QueueState (ipcInit N) []
  | message {s : Ipc} {q : List ℕ} (h : QueueState s q) (i recvPid bufferAddr length : ℕ) :
      QueueState (s.setMessage i recvPid bufferAddr length) q
  | enqueue {s : Ipc} {q : List ℕ} {pid : ℕ} (h : QueueState s q) (hpid : pid < N) (hq : pid ∉ q) :
      QueueState (msgEnqueue N s pid) (q ++ [pid])
  | remove {s : Ipc} {q₁ q₂ : List ℕ} {pid : ℕ} (h : QueueState s (q₁ ++ pid :: q₂)) :
      QueueState (msgRemove N s pid) (q₁ ++ q₂)

variable {N}

theorem sendPid_of_data {s' : Ipc} (h : ∀ i, (s'.msgBlock i).data = (s.msgBlock i).data)
    (hid : ∀ i, (s.msgBlock i).sendPid = i) (i : ℕ) : (s'.msgBlock i).sendPid = i :=
  (congrArg Prod.fst (h i)).trans (hid i)

theorem QueueState.ring (h : QueueState N s q) :
    IsRing (s.links N) N q ∧ ∀ i, (s.msgBlock i).sendPid = i := by
  induction h with
  | init => exact ⟨ring_ipcInit, fun _ => rfl⟩
  | @message s q _ i r a n ih =>
    refine ⟨by rw [links_setMessage]; exact ih.1, fun j => ?_⟩
    have hdata := congrArg Prod.fst (setMessage_data s i r a n j)
    by_cases hj : j = i
    · rw [if_pos hj] at hdata
      exact hdata.trans ((ih.2 i).trans hj.symm)
    · rw [if_neg hj] at hdata
      exact hdata.trans (ih.2 j)
  | @enqueue s q pid _ hpid hq ih =>
    refine ⟨ring_msgEnqueue ih.1 ?_, sendPid_of_data (msgEnqueue_data s pid) ih.2⟩
    rw [mem_cons, not_or]
    exact ⟨hpid.ne, hq⟩
  | remove _ ih => exact ⟨ring_msgRemove ih.1, sendPid_of_data (msgRemove_data _ _) ih.2⟩

/-- A block for another receiver is looked at again and again. -/
theorem recvIDLoop_stuck {recvPid : ℕ} (hpid : pid ≠ N)
    (hother : (s.msgBlock pid).recvPid ≠ recvPid) (k : ℕ) :
    recvIDLoop N s recvPid k pid = none := by
  induction k with
  | zero => rfl
  | succ k ih => rw [recvIDLoop, if_neg hpid, if_neg hother, ih]

theorem not_returns_of_head {recvPid : ℕ} (hhead : s.head ≠ N)
    (hother : (s.msgBlock s.head).recvPid ≠ recvPid) (r : ℕ) :
    ¬ MsgGetBlockByRecvID N s recvPid r := by
  rintro ⟨k, hk⟩
  rw [recvIDLoop_stuck hhead hother] at hk
  exact nomatch hk

/-- **The search by receiver** returns the first sender for the receiver, or `NUM_IDS`, exactly
if the queue is empty or its first message is for the receiver; otherwise it does not return. -/
theorem recvID_lookup_iff (h : QueueState N s q) (recvPid : ℕ) :
    (MsgGetBlockByRecvID N s recvPid (firstFor N s q recvPid) ↔
      ∀ i, q.head? = some i → (s.msgBlock i).recvPid = recvPid) ∧
    ((∃ i, q.head? = some i ∧ (s.msgBlock i).recvPid ≠ recvPid) →
      ∀ r, ¬ MsgGetBlockByRecvID N s recvPid r) := by
  obtain ⟨hr, hid⟩ := h.ring
  have hhead : s.head = q.head?.getD N := by
    have hnext : (s.links N).next N = s.head := if_pos rfl
    rw [← hnext]
    exact hr.next_head
  cases q with
  | nil =>
    refine ⟨iff_of_true ⟨1, ?_⟩ nofun, nofun⟩
    rw [hhead]
    exact if_pos rfl
  | cons i q =>
    have hiN : i ≠ N := fun he => (nodup_cons.mp hr.nodup).1 (by simp [he])
    have hi : s.head = i := hhead
    have hstuck : (s.msgBlock i).recvPid ≠ recvPid → ∀ r, ¬ MsgGetBlockByRecvID N s recvPid r :=
      fun hne => not_returns_of_head (by rw [hi]; exact hiN) (by rw [hi]; exact hne)
    refine ⟨⟨fun hret j hj => ?_, fun hfor => ⟨1, ?_⟩⟩, ?_⟩
    · obtain rfl : i = j := Option.some.inj hj
      by_contra hne
      exact hstuck hne _ hret
    · have hrecv := hfor i rfl
      rw [hi, recvIDLoop, if_neg hiN, if_pos hrecv, hid i, firstFor,
        find?_cons_of_pos (by simpa using hrecv)]
      rfl
    · rintro ⟨j, hj, hne⟩
      obtain rfl : i = j := Option.some.inj hj
      exact hstuck hne

/-- Process `1` has sent to `2`, and the receiver looks for its messages. -/
theorem recvID_lookup_first : ∃ s, QueueState 64 s [1] ∧ MsgGetBlockByRecvID 64 s 2 1 := by
  have h : QueueState 64 (msgEnqueue 64 ((ipcInit 64).setMessage 1 2 0 0) 1) [1] :=
    (QueueState.init.message 1 2 0 0).enqueue (by decide) (by decide)
  refine ⟨_, h, ((recvID_lookup_iff h 2).1.mpr fun i hi => ?_)⟩
  obtain rfl : 1 = i := Option.some.inj hi
  decide

/-- Processes `1` and `3` have sent to `2` and `4`: the search for `4` does not find the second
message, and the search for `5` does not find out that there is none. -/
theorem recvID_lookup_hangs :
    ∃ s, QueueState 64 s [1, 3] ∧ firstFor 64 s [1, 3] 4 = 3 ∧ firstFor 64 s [1, 3] 5 = 64 ∧
      ∀ r, ¬ MsgGetBlockByRecvID 64 s 4 r ∧ ¬ MsgGetBlockByRecvID 64 s 5 r := by
  have h₁ : QueueState 64 (msgEnqueue 64 ((ipcInit 64).setMessage 1 2 0 0) 1) [1] :=
    (QueueState.init.message 1 2 0 0).enqueue (by decide) (by decide)
  have h₂ : QueueState 64 (msgEnqueue 64 ((msgEnqueue 64 ((ipcInit 64).setMessage 1 2 0 0)
      1).setMessage 3 4 0 0) 3) [1, 3] :=
    (h₁.message 3 4 0 0).enqueue (by decide) (by decide)
  exact ⟨_, h₂, by decide, by decide, fun r => ⟨not_returns_of_head (by decide) (by decide) r,
    not_returns_of_head (by decide) (by decide) r⟩⟩

end Ipc

end Mcertikos
