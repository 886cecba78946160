/-
Thread queues (`PTCBIntro.c`, `PTQueueIntro.c`, `PTQueueInit.c`).

Every CPU has one queue for each channel, the one with number `NUM_IDS` being its ready queue.
All of them are doubly linked lists through the same `prev` and `next` fields of the thread
control blocks, with `NUM_IDS` as the null index, so an operation on one queue is also a
statement about all the others:

* `Lists` — the queues with the names `f x` are the lists `L x`; no thread is in two of them;
* `Lists.enqueue`, `Lists.dequeue`, `Lists.remove` — the operations as edits of one list;
* `tqueue_fifo` — in every run from `tqueue_init` on, the queues are first-in first-out lists.

Design notes: a queue is named by its CPU and its channel.  The scheduler uses the ready queues
only, so `Lists` takes the names it speaks about as a parameter.  The test `prev != next` in
`tqueue_remove` never fails: only the null index can be on both sides of a thread.
-/
import Mcertikos.Lib.Ring
import Mcertikos.Pmm.Container

namespace Mcertikos

open List Relation Function Ring

/-- `NUM_CPUS` of `x86.h`. -/
def numCpus : ℕ := 8

/-- `t_state`. -/
inductive TState where
  | ready
  | run
  | sleep
  | dead
  deriving DecidableEq, Repr

/-- The fields of `TCBPool`, `TQueuePool` and `CURID` the scheduler uses. -/
structure Sched where
  state : ℕ → TState
  prev : ℕ → ℕ
  next : ℕ → ℕ
  channel : ℕ → ℕ
  head : ℕ → ℕ → ℕ
  tail : ℕ → ℕ → ℕ
  curid : ℕ → ℕ

namespace Sched

def tcbSetState (s : Sched) (pid : ℕ) (state : TState) : Sched :=
  { s with state := update s.state pid state }

def tcbSetPrev (s : Sched) (pid prevPid : ℕ) : Sched :=
  { s with prev := update s.prev pid prevPid }

def tcbSetNext (s : Sched) (pid nextPid : ℕ) : Sched :=
  { s with next := update s.next pid nextPid }

def tcbSetChan (s : Sched) (pid chan : ℕ) : Sched :=
  { s with channel := update s.channel pid chan }

def tqueueSetHead (s : Sched) (c chid head : ℕ) : Sched :=
  { s with head := update s.head c (update (s.head c) chid head) }

def tqueueSetTail (s : Sched) (c chid tail : ℕ) : Sched :=
  { s with tail := update s.tail c (update (s.tail c) chid tail) }

def setCurid (s : Sched) (c curid : ℕ) : Sched :=
  { s with curid := update s.curid c curid }

/-! ### The operations -/

/-- After the loops of `tcb_init` and `tqueue_init`. -/
def tqueueInit : Sched where
  state := fun _ => .dead
  prev := fun _ => numIds
  next := fun _ => numIds
  channel := fun _ => 0
  head := fun _ _ => numIds
  tail := fun _ _ => numIds
  curid := fun _ => 0

def tqueueEnqueue (s : Sched) (c chid pid : ℕ) : Sched :=
  let tail := s.tail c chid
  if tail = numIds then
    (((s.tcbSetPrev pid numIds).tcbSetNext pid numIds).tqueueSetHead c chid pid).tqueueSetTail
      c chid pid
  else
    (((s.tcbSetNext tail pid).tcbSetPrev pid tail).tcbSetNext pid numIds).tqueueSetTail c chid pid

/-- The popped thread, or `NUM_IDS` if the queue is empty. -/
def tqueueDequeue (s : Sched) (c chid : ℕ) : ℕ × Sched :=
  let head := s.head c chid
  if head ≠ numIds then
    let next := s.next head
    let s₁ :=
      if next = numIds then (s.tqueueSetHead c chid numIds).tqueueSetTail c chid numIds
      else (s.tcbSetPrev next numIds).tqueueSetHead c chid next
    (head, (s₁.tcbSetPrev head numIds).tcbSetNext head numIds)
  else (numIds, s)

def tqueueRemove (s : Sched) (c chid pid : ℕ) : Sched :=
  let prev := s.prev pid
  let next := s.next pid
  let s₁ :=
    if prev = numIds then
      if next = numIds then (s.tqueueSetHead c chid numIds).tqueueSetTail c chid numIds
      else (s.tcbSetPrev next numIds).tqueueSetHead c chid next
    else
      if next = numIds then (s.tcbSetNext prev numIds).tqueueSetTail c chid prev
      else (if prev ≠ next then s.tcbSetNext prev next else s).tcbSetPrev next prev
  (s₁.tcbSetPrev pid numIds).tcbSetNext pid numIds

/-! ### Field lemmas -/

section Fields

variable (s : Sched) (c k v d e a : ℕ)

@[simp] theorem tcbSetPrev_prev : (s.tcbSetPrev k v).prev a = if a = k then v else s.prev a :=
  update_apply ..

@[simp] theorem tcbSetNext_next : (s.tcbSetNext k v).next a = if a = k then v else s.next a :=
  update_apply ..

@[simp] theorem tqueueSetHead_head :
    (s.tqueueSetHead c k v).head d e = if d = c ∧ e = k then v else s.head d e := by
  unfold tqueueSetHead
  by_cases hd : d = c
  · subst hd
    simp [update_apply]
  · simp [hd]

@[simp] theorem tqueueSetTail_tail :
    (s.tqueueSetTail c k v).tail d e = if d = c ∧ e = k then v else s.tail d e := by
  unfold tqueueSetTail
  by_cases hd : d = c
  · subst hd
    simp [update_apply]
  · simp [hd]

@[simp] theorem tcbSetPrev_next : (s.tcbSetPrev k v).next = s.next := rfl

@[simp] theorem tcbSetPrev_head : (s.tcbSetPrev k v).head = s.head := rfl

@[simp] theorem tcbSetPrev_tail : (s.tcbSetPrev k v).tail = s.tail := rfl

@[simp] theorem tcbSetNext_prev : (s.tcbSetNext k v).prev = s.prev := rfl

@[simp] theorem tcbSetNext_head : (s.tcbSetNext k v).head = s.head := rfl

@[simp] theorem tcbSetNext_tail : (s.tcbSetNext k v).tail = s.tail := rfl

@[simp] theorem tqueueSetHead_next : (s.tqueueSetHead c k v).next = s.next := rfl

@[simp] theorem tqueueSetHead_prev : (s.tqueueSetHead c k v).prev = s.prev := rfl

@[simp] theorem tqueueSetHead_tail : (s.tqueueSetHead c k v).tail = s.tail := rfl

@[simp] theorem tqueueSetTail_next : (s.tqueueSetTail c k v).next = s.next := rfl

@[simp] theorem tqueueSetTail_prev : (s.tqueueSetTail c k v).prev = s.prev := rfl

@[simp] theorem tqueueSetTail_head : (s.tqueueSetTail c k v).head = s.head := rfl

end Fields

/-! ### Queues as rings -/

/-- The list fields as links, `head` and `tail` of the queue `x` being those of the null
index. -/
def linksAt (s : Sched) (x : ℕ × ℕ) : Links ℕ where
  prev := fun i => if i = numIds then s.tail x.1 x.2 else s.prev i
  next := fun i => if i = numIds then s.head x.1 x.2 else s.next i

/-- The queue `x`, from its head along `next`. -/
def queue (s : Sched) (x : ℕ × ℕ) : List ℕ := walk s.next numIds numIds (s.head x.1 x.2)

variable {s s' : Sched} {x : ℕ × ℕ} {a t : ℕ}

@[simp] theorem linksAt_next_nil (s : Sched) (x : ℕ × ℕ) :
    (s.linksAt x).next numIds = s.head x.1 x.2 := by
  simp [linksAt]

@[simp] theorem linksAt_prev_nil (s : Sched) (x : ℕ × ℕ) :
    (s.linksAt x).prev numIds = s.tail x.1 x.2 := by
  simp [linksAt]

theorem linksAt_next (s : Sched) (x : ℕ × ℕ) (ha : a ≠ numIds) : (s.linksAt x).next a = s.next a :=
  if_neg ha

theorem linksAt_prev (s : Sched) (x : ℕ × ℕ) (ha : a ≠ numIds) : (s.linksAt x).prev a = s.prev a :=
  if_neg ha

/-- Walking only reads the fields of the nodes it meets. -/
theorem walk_of_ne {next next' : ℕ → ℕ} (h : ∀ a, a ≠ numIds → next a = next' a) :
    ∀ n a, walk next numIds n a = walk next' numIds n a := by
  intro n
  induction n with
  | zero => exact fun _ => rfl
  | succ n ih =>
    intro a
    by_cases ha : a = numIds
    · rw [walk, walk, if_pos ha, if_pos ha]
    · rw [walk, walk, if_neg ha, if_neg ha, h a ha, ih]

/-- The queues with the names `f x` are the lists `L x`. -/
structure Lists {ι : Type*} (s : Sched) (f : ι → ℕ × ℕ) (L : ι → List ℕ) : Prop where
  ring : ∀ x, IsRing (s.linksAt (f x)) numIds (L x)
  ids : ∀ x, ∀ t ∈ L x, t < numIds
  apart : ∀ x y t, t ∈ L x → t ∈ L y → x = y

namespace Lists

variable {ι : Type*} {f : ι → ℕ × ℕ} {L : ι → List ℕ} {x : ι} {l l₁ l₂ : List ℕ}

section

variable (h : s.Lists f L)
include h

theorem ne_nil (ht : t ∈ L x) : t ≠ numIds := (h.ids x t ht).ne

theorem length_le (x : ι) : (L x).length ≤ numIds := by
  have hsub : (L x).toFinset ⊆ Finset.range numIds := fun i hi => by
    rw [Finset.mem_range]
    exact h.ids x i (mem_toFinset.mp hi)
  have hcard := Finset.card_le_card hsub
  rwa [toFinset_card_of_nodup (nodup_cons.mp (h.ring x).nodup).2, Finset.card_range] at hcard

/-- Along `next` from the head. -/
theorem walk_next (x : ι) {n : ℕ} (hn : (L x).length ≤ n) :
    walk s.next numIds n (s.head (f x).1 (f x).2) = L x := by
  rw [walk_of_ne (fun a ha => (linksAt_next s (f x) ha).symm), ← linksAt_next_nil]
  exact (h.ring x).walk hn

/-- Along `prev` from the tail. -/
theorem walk_prev (x : ι) {n : ℕ} (hn : (L x).length ≤ n) :
    walk s.prev numIds n (s.tail (f x).1 (f x).2) = (L x).reverse := by
  rw [walk_of_ne (fun a ha => (linksAt_prev s (f x) ha).symm), ← linksAt_prev_nil]
  exact (h.ring x).reverse.walk (by rwa [length_reverse])

theorem queue (x : ι) : s.queue (f x) = L x := h.walk_next x (h.length_le x)

theorem head_eq (x : ι) : s.head (f x).1 (f x).2 = (L x).head?.getD numIds := by
  have hc := (h.ring x).chain
  rw [← linksAt_next_nil]
  cases hL : L x with
  | nil =>
    rw [hL, nil_append, isChain_pair] at hc
    exact hc.1
  | cons t l =>
    rw [hL, cons_append, isChain_cons_cons] at hc
    exact hc.1.1

theorem tail_eq (x : ι) : s.tail (f x).1 (f x).2 = (L x).getLast?.getD numIds := by
  have hc := (h.ring x).reverse.chain
  rw [← linksAt_prev_nil, ← head?_reverse]
  cases hL : (L x).reverse with
  | nil =>
    rw [hL, nil_append, isChain_pair] at hc
    exact hc.1
  | cons t l =>
    rw [hL, cons_append, isChain_cons_cons] at hc
    exact hc.1.1

/-- The first thread of a queue. -/
theorem first (hL : L x = t :: l) :
    s.head (f x).1 (f x).2 = t ∧ s.prev t = numIds ∧ t ≠ numIds := by
  have hN : t ≠ numIds := h.ne_nil (x := x) (by rw [hL]; simp)
  have hc := (h.ring x).chain
  rw [hL, cons_append, isChain_cons_cons] at hc
  exact ⟨by rw [← linksAt_next_nil, hc.1.1], by rw [← linksAt_prev s (f x) hN, hc.1.2], hN⟩

/-- Popping a thread is removing the first one. -/
theorem dequeue_eq (hL : L x = t :: l) :
    s.tqueueDequeue (f x).1 (f x).2 = (t, s.tqueueRemove (f x).1 (f x).2 t) := by
  obtain ⟨hhead, hprev, hN⟩ := h.first hL
  simp only [tqueueDequeue, tqueueRemove, hhead, hprev, ne_eq, hN, not_false_eq_true, if_true]

end

variable [DecidableEq ι]

/-- Only the queue `x` and the fields of its threads and of `t` change. -/
theorem edit (h : s.Lists f L) (hring : IsRing (s'.linksAt (f x)) numIds l)
    (hids : ∀ a ∈ l, a = t ∨ a ∈ L x) (ht : t < numIds) (hq : ∀ y, y ≠ x → t ∉ L y)
    (hends : ∀ y, y ≠ x → s'.head (f y).1 (f y).2 = s.head (f y).1 (f y).2 ∧
      s'.tail (f y).1 (f y).2 = s.tail (f y).1 (f y).2)
    (hkeep : ∀ a, a ≠ t → a ∉ numIds :: L x → s'.next a = s.next a ∧ s'.prev a = s.prev a) :
    s'.Lists f (update L x l) := by
  constructor
  · intro y
    by_cases hy : y = x
    · rw [hy, update_self]
      exact hring
    rw [update_of_ne hy]
    -- another queue has none of these threads
    have hfields : ∀ a ∈ L y, s'.next a = s.next a ∧ s'.prev a = s.prev a := by
      intro a ha
      refine hkeep a (fun he => hq y hy (he ▸ ha)) fun hm => ?_
      rcases mem_cons.mp hm with hm | hm
      · exact h.ne_nil ha hm
      · exact hy (h.apart y x a ha hm)
    refine (h.ring y).congr ?_ ?_
    · intro a ha
      rcases mem_cons.mp ha with rfl | ha
      · rw [linksAt_next_nil, linksAt_next_nil, (hends y hy).1]
      · rw [linksAt_next _ _ (h.ne_nil ha), linksAt_next _ _ (h.ne_nil ha), (hfields a ha).1]
    · intro a ha
      rcases mem_cons.mp ha with rfl | ha
      · rw [linksAt_prev_nil, linksAt_prev_nil, (hends y hy).2]
      · rw [linksAt_prev _ _ (h.ne_nil ha), linksAt_prev _ _ (h.ne_nil ha), (hfields a ha).2]
  · intro y a ha
    by_cases hy : y = x
    · rw [hy, update_self] at ha
      rcases hids a ha with rfl | ha
      · exact ht
      · exact h.ids x a ha
    · rw [update_of_ne hy] at ha
      exact h.ids y a ha
  · -- a thread of the edited queue was there before, or is `t`
    have hold : ∀ y a, y ≠ x → a ∈ L y → a ∉ l := fun y a hy ha hm => by
      rcases hids a hm with rfl | hm
      · exact hq y hy ha
      · exact hy (h.apart y x a ha hm)
    intro y z a ha hz
    by_cases hy : y = x <;> by_cases hzx : z = x
    · exact hy.trans hzx.symm
    · rw [hy, update_self] at ha
      rw [update_of_ne hzx] at hz
      exact absurd ha (hold z a hzx hz)
    · rw [hzx, update_self] at hz
      rw [update_of_ne hy] at ha
      exact absurd hz (hold y a hy ha)
    · rw [update_of_ne hy] at ha
      rw [update_of_ne hzx] at hz
      exact h.apart y z a ha hz

/-- **`tqueue_enqueue`** appends a thread that is in no queue. -/
theorem enqueue (h : s.Lists f L) (hf : Injective f) (ht : t < numIds) (hq : ∀ y, t ∉ L y) (x : ι) :
    (s.tqueueEnqueue (f x).1 (f x).2 t).Lists f (update L x (L x ++ [t])) := by
  have hN : t ≠ numIds := ht.ne
  have hmem : s.tail (f x).1 (f x).2 ∈ numIds :: L x := by
    rw [← linksAt_prev_nil]
    exact (h.ring x).prev_mem
  have hnot : t ∉ numIds :: L x := by
    rw [mem_cons, not_or]
    exact ⟨hN, hq x⟩
  have htail : s.tail (f x).1 (f x).2 ≠ t := fun he => hnot (he ▸ hmem)
  have hring : IsRing ((s.tqueueEnqueue (f x).1 (f x).2 t).linksAt (f x)) numIds (L x ++ [t]) := by
    by_cases hnil : s.tail (f x).1 (f x).2 = numIds
    · refine (h.ring x).insert_back hnot ?_ ?_ ?_ ?_ ?_ ?_
      · simp [tqueueEnqueue, hnil]
      · simp [tqueueEnqueue, hnil, linksAt, hN]
      · simp [tqueueEnqueue, hnil, linksAt, hN]
      · simp [tqueueEnqueue, hnil]
      · intro a ha hat
        simp [tqueueEnqueue, hnil, linksAt, ha, hat]
      · intro a ha hat
        rw [linksAt_prev_nil, hnil] at ha
        simp [tqueueEnqueue, hnil, linksAt, ha, hat]
    · refine (h.ring x).insert_back hnot ?_ ?_ ?_ ?_ ?_ ?_
      · simp [tqueueEnqueue, hnil]
      · simp [tqueueEnqueue, hnil, linksAt, hN]
      · simp [tqueueEnqueue, hnil, linksAt, hN]
      · simp [tqueueEnqueue, hnil, linksAt, htail]
      · intro a ha hat
        simp [tqueueEnqueue, hnil, linksAt, ha, hat]
      · intro a ha hat
        rw [linksAt_prev_nil] at ha
        simp [tqueueEnqueue, hnil, linksAt, ha, hat]
  refine h.edit hring (fun a ha => ?_) ht (fun y _ => hq y) (fun y hy => ?_) fun a hat ha => ?_
  · rcases mem_append.mp ha with ha | ha
    · exact .inr ha
    · exact .inl (mem_singleton.mp ha)
  · have hne : ¬ ((f y).1 = (f x).1 ∧ (f y).2 = (f x).2) := fun he => hy (hf (Prod.ext he.1 he.2))
    by_cases hnil : s.tail (f x).1 (f x).2 = numIds <;> simp [tqueueEnqueue, hnil, hne]
  · have hne : a ≠ s.tail (f x).1 (f x).2 := fun he => ha (he ▸ hmem)
    by_cases hnil : s.tail (f x).1 (f x).2 = numIds <;> simp [tqueueEnqueue, hnil, hat, hne]

/-- What an operation must do to the fields to take thread `t` off its queue. -/
theorem take (h : s.Lists f L) (hL : L x = l₁ ++ t :: l₂)
    (hnext : ∀ a, a ≠ t → (s'.linksAt (f x)).next a =
      if a = s.prev t then s.next t else (s.linksAt (f x)).next a)
    (hprev : ∀ a, a ≠ t → (s'.linksAt (f x)).prev a =
      if a = s.next t then s.prev t else (s.linksAt (f x)).prev a)
    (hends : ∀ y, y ≠ x → s'.head (f y).1 (f y).2 = s.head (f y).1 (f y).2 ∧
      s'.tail (f y).1 (f y).2 = s.tail (f y).1 (f y).2) :
    s'.Lists f (update L x (l₁ ++ l₂)) := by
  have hr := h.ring x
  rw [hL] at hr
  have hm : t ∈ L x := by rw [hL]; simp
  have hN := h.ne_nil hm
  obtain ⟨hmp, hmn⟩ := hr.neighbours_mem
  obtain ⟨hnp, hnn⟩ := hr.neighbours_ne
  rw [linksAt_prev _ _ hN] at hmp hnp
  rw [linksAt_next _ _ hN] at hmn hnn
  rw [← hL] at hmp hmn
  have hring : IsRing (s'.linksAt (f x)) numIds (l₁ ++ l₂) := by
    refine hr.unlink ?_ ?_ ?_ ?_
    · rw [linksAt_prev _ _ hN, linksAt_next _ _ hN, hnext _ hnp, if_pos rfl]
    · rw [linksAt_prev _ _ hN, linksAt_next _ _ hN, hprev _ hnn, if_pos rfl]
    · intro a ha hat
      rw [linksAt_prev _ _ hN] at ha
      rw [hnext a hat, if_neg ha]
    · intro a ha hat
      rw [linksAt_next _ _ hN] at ha
      rw [hprev a hat, if_neg ha]
  refine h.edit (t := t) hring (fun a ha => .inr ?_) (h.ids x t hm)
    (fun y hy ht => hy (h.apart y x t ht hm)) hends fun a hat ha => ?_
  · rw [hL]
    simp only [mem_append, mem_cons] at ha ⊢
    tauto
  · have haN : a ≠ numIds := fun he => ha (he ▸ mem_cons_self)
    have h1 := hnext a hat
    have h2 := hprev a hat
    have hap : a ≠ s.prev t := fun he => ha (he ▸ hmp)
    have han : a ≠ s.next t := fun he => ha (he ▸ hmn)
    rw [if_neg hap, linksAt_next _ _ haN, linksAt_next _ _ haN] at h1
    rw [if_neg han, linksAt_prev _ _ haN, linksAt_prev _ _ haN] at h2
    exact ⟨h1, h2⟩

/-- **`tqueue_remove`** takes a thread off its queue, wherever it stands. -/
theorem remove (h : s.Lists f L) (hf : Injective f) (hL : L x = l₁ ++ t :: l₂) :
    (s.tqueueRemove (f x).1 (f x).2 t).Lists f (update L x (l₁ ++ l₂)) := by
  have hr := h.ring x
  rw [hL] at hr
  have hN : t ≠ numIds := h.ne_nil (x := x) (by rw [hL]; simp)
  have hself := hr.eq_of_neighbours_eq
  rw [linksAt_prev _ _ hN, linksAt_next _ _ hN] at hself
  refine h.take hL ?_ ?_ ?_
  · intro a ha
    by_cases hp : s.prev t = numIds
    · by_cases hn : s.next t = numIds <;> by_cases haN : a = numIds <;>
        simp [tqueueRemove, linksAt, hp, hn, haN, ha]
    · have hpn : s.prev t ≠ s.next t := fun he => hp (hself he)
      by_cases hn : s.next t = numIds <;> by_cases haN : a = numIds <;>
        simp [tqueueRemove, linksAt, hp, hn, haN, ha, hpn, Ne.symm hp]
  · intro a ha
    by_cases hn : s.next t = numIds
    · by_cases hp : s.prev t = numIds <;> by_cases haN : a = numIds <;>
        simp [tqueueRemove, linksAt, hp, hn, haN, ha]
    · by_cases hp : s.prev t = numIds
      · by_cases haN : a = numIds <;> simp [tqueueRemove, linksAt, hp, hn, haN, ha, Ne.symm hn]
      · have hpn : s.prev t ≠ s.next t := fun he => hp (hself he)
        by_cases haN : a = numIds <;>
          simp [tqueueRemove, linksAt, hp, hn, haN, ha, hpn, Ne.symm hn]
  · intro y hy
    have hne : ¬ ((f y).1 = (f x).1 ∧ (f y).2 = (f x).2) := fun he => hy (hf (Prod.ext he.1 he.2))
    by_cases hp : s.prev t = numIds <;> by_cases hn : s.next t = numIds <;>
      by_cases hpn : s.prev t = s.next t <;> simp [tqueueRemove, hp, hn, hpn, hne]

/-- **`tqueue_dequeue`** takes the first thread of the queue. -/
theorem dequeue (h : s.Lists f L) (hf : Injective f) (hL : L x = t :: l) :
    (s.tqueueDequeue (f x).1 (f x).2).1 = t ∧
      (s.tqueueDequeue (f x).1 (f x).2).2.Lists f (update L x l) := by
  rw [h.dequeue_eq hL]
  exact ⟨rfl, h.remove hf (show L x = [] ++ t :: l from hL)⟩

end Lists

/-! ### Runs -/

/-- The queues of the system, by CPU and channel. -/
abbrev Queue : Type := Fin numCpus × Fin (numIds + 1)

def Queue.name (x : Queue) : ℕ × ℕ := (x.1, x.2)

theorem Queue.name_injective : Injective Queue.name := fun _ _ h =>
  Prod.ext (Fin.ext (congrArg Prod.fst h)) (Fin.ext (congrArg Prod.snd h))

/-- A call of one of the operations: a thread that is in no queue is appended, a thread of the
queue is removed. -/
inductive QueueStep (s : Sched) : Sched → Prop
  | enqueue (x : Queue) {pid : ℕ} (hpid : pid < numIds) (hfree : ∀ y : Queue, pid ∉ s.queue y.name) :
      QueueStep s (s.tqueueEnqueue x.1 x.2 pid)
  | dequeue (x : Queue) : QueueStep s (s.tqueueDequeue x.1 x.2).2
  | remove (x : Queue) {pid : ℕ} (hin : pid ∈ s.queue x.name) : QueueStep s (s.tqueueRemove x.1 x.2 pid)

/-- The queues are the lists `L`, and a thread in none of them is linked to nothing. -/
structure Linked (s : Sched) (L : Queue → List ℕ) : Prop extends s.Lists Queue.name L where
  free : ∀ t < numIds, (∀ x, t ∉ L x) → s.prev t = numIds ∧ s.next t = numIds

namespace Linked

variable {L : Queue → List ℕ} {x : Queue} {pid : ℕ}

theorem init : tqueueInit.Linked fun _ => [] := by
  refine ⟨⟨fun x => ⟨nodup_singleton _, isChain_pair.mpr ⟨?_, ?_⟩⟩, fun _ t ht => ?_,
    fun _ _ t ht => ?_⟩, fun t _ _ => ⟨rfl, rfl⟩⟩
  · exact linksAt_next_nil tqueueInit x.name
  · exact linksAt_prev_nil tqueueInit x.name
  · exact absurd ht not_mem_nil
  · exact absurd ht not_mem_nil

theorem enqueue (h : s.Linked L) (hpid : pid < numIds) (hfree : ∀ y, pid ∉ L y) (x : Queue) :
    (s.tqueueEnqueue x.1 x.2 pid).Linked (update L x (L x ++ [pid])) := by
  refine ⟨h.toLists.enqueue Queue.name_injective hpid hfree x, fun t ht hnot => ?_⟩
  have hmem : ∀ y, t ∉ L y := fun y hy => by
    refine hnot y ?_
    by_cases hyx : y = x
    · rw [hyx, update_self]
      exact mem_append_left _ (hyx ▸ hy)
    · rwa [update_of_ne hyx]
  have hne : t ≠ pid := fun he => hnot x (by
    rw [update_self, he]
    exact mem_append_right _ (mem_singleton_self _))
  have htail : t ≠ s.tail x.1 x.2 := fun he => by
    have hm := (h.ring x).prev_mem
    rw [linksAt_prev_nil, show s.tail x.name.1 x.name.2 = t from he.symm] at hm
    rcases mem_cons.mp hm with hN | hx
    · exact ht.ne hN
    · exact hmem x hx
  by_cases hnil : s.tail x.1 x.2 = numIds <;>
    simpa [tqueueEnqueue, hnil, hne, htail] using h.free t ht hmem

theorem remove (h : s.Linked L) (hin : pid ∈ L x) :
    (s.tqueueRemove x.1 x.2 pid).Linked (update L x ((L x).erase pid)) := by
  obtain ⟨l₁, l₂, hL⟩ := append_of_mem hin
  have hr := h.ring x
  rw [hL] at hr
  have hnd := (nodup_cons.mp hr.nodup).2
  have herase : (L x).erase pid = l₁ ++ l₂ := by
    rw [hL, erase_append_right _ fun hm => (nodup_append.mp hnd).2.2 pid hm pid (by simp) rfl,
      erase_cons_head]
  have hlists := h.toLists.remove Queue.name_injective hL
  rw [← herase] at hlists
  refine ⟨hlists, fun t ht hnot => ?_⟩
  by_cases he : t = pid
  · subst he
    simp [tqueueRemove]
  -- the thread was in no queue before, so it is no neighbour of the one removed
  have hmem : ∀ y, t ∉ L y := fun y hy => by
    refine hnot y ?_
    by_cases hyx : y = x
    · rw [hyx, update_self, mem_erase_of_ne he]
      exact hyx ▸ hy
    · rwa [update_of_ne hyx]
  have hN := h.ne_nil hin
  have hnotin : t ∉ numIds :: L x := by
    rw [mem_cons, not_or]
    exact ⟨ht.ne, hmem x⟩
  obtain ⟨hmp, hmn⟩ := hr.neighbours_mem
  rw [linksAt_prev _ _ hN, ← hL] at hmp
  rw [linksAt_next _ _ hN, ← hL] at hmn
  have hp : t ≠ s.prev pid := fun he => hnotin (he ▸ hmp)
  have hn : t ≠ s.next pid := fun he => hnotin (he ▸ hmn)
  by_cases hp' : s.prev pid = numIds <;> by_cases hn' : s.next pid = numIds <;>
    by_cases hpn : s.prev pid = s.next pid <;>
    simpa [tqueueRemove, hp', hn', hpn, he, hp, hn] using h.free t ht hmem

theorem dequeue (h : s.Linked L) (x : Queue) :
    (s.tqueueDequeue x.1 x.2).1 = (L x).head?.getD numIds ∧
      (s.tqueueDequeue x.1 x.2).2.Linked (update L x (L x).tail) := by
  cases hL : L x with
  | nil =>
    have hhead : s.head x.1 x.2 = numIds := by
      rw [show s.head x.1 x.2 = _ from h.head_eq x, hL]
      rfl
    have hsame : s.tqueueDequeue x.1 x.2 = (numIds, s) := by
      unfold tqueueDequeue
      rw [if_neg (not_not.mpr hhead)]
    refine ⟨by rw [hsame]; rfl, ?_⟩
    rw [hsame, tail_nil, ← hL, update_eq_self]
    exact h
  | cons t l =>
    have hstep : s.tqueueDequeue x.1 x.2 = (t, s.tqueueRemove x.1 x.2 t) := h.dequeue_eq hL
    have hmem : t ∈ L x := by rw [hL]; exact mem_cons_self
    have hrem := h.remove hmem
    rw [hL, erase_cons_head] at hrem
    rw [hstep]
    exact ⟨rfl, hrem⟩

end Linked

theorem linked_of_run (hrun : ReflTransGen QueueStep tqueueInit s) : ∃ L, s.Linked L := by
  induction hrun with
  | refl => exact ⟨_, Linked.init⟩
  | tail _ hstep ih =>
    obtain ⟨L, h⟩ := ih
    cases hstep with
    | enqueue x hpid hfree =>
      exact ⟨_, h.enqueue hpid (fun y => by rw [← h.queue y]; exact hfree y) x⟩
    | dequeue x => exact ⟨_, (h.dequeue x).2⟩
    | remove x hin => exact ⟨_, h.remove (by rw [← h.queue x]; exact hin)⟩

/-- The fields of the queues and of the threads, for lists `L`. -/
structure Fifo (s : Sched) (L : Queue → List ℕ) : Prop where
  nodup : ∀ x, (L x).Nodup
  apart : ∀ x y t, t ∈ L x → t ∈ L y → x = y
  head : ∀ x, s.head x.1 x.2 = (L x).head?.getD numIds
  tail : ∀ x, s.tail x.1 x.2 = (L x).getLast?.getD numIds
  forward : ∀ x, walk s.next numIds (numIds + 1) (s.head x.1 x.2) = L x
  backward : ∀ x, walk s.prev numIds (numIds + 1) (s.tail x.1 x.2) = (L x).reverse
  length_le : ∀ x, (L x).length ≤ numIds
  free : ∀ t < numIds, (∀ x, t ∉ L x) → s.prev t = numIds ∧ s.next t = numIds

theorem Linked.fifo {L : Queue → List ℕ} (h : s.Linked L) : s.Fifo L where
  nodup := fun x => (nodup_cons.mp (h.ring x).nodup).2
  apart := h.apart
  head := h.head_eq
  tail := h.tail_eq
  forward := fun x => h.walk_next x (Nat.le_succ_of_le (h.length_le x))
  backward := fun x => h.walk_prev x (Nat.le_succ_of_le (h.length_le x))
  length_le := h.length_le
  free := h.free

/-- **Thread queues are first-in first-out lists**: in every run from `tqueue_init` on there are
lists without repetition, no two with a common thread, that the fields represent; enqueueing
appends, dequeueing removes and returns the first thread, removing deletes the thread, and all
other lists stay. -/
theorem tqueue_fifo (hrun : ReflTransGen QueueStep tqueueInit s) :
    ∃ L, s.Fifo L ∧ (∀ x pid, pid < numIds → (∀ y, pid ∉ L y) →
        (s.tqueueEnqueue x.1 x.2 pid).Fifo (update L x (L x ++ [pid]))) ∧
      (∀ x : Queue, (s.tqueueDequeue x.1 x.2).1 = (L x).head?.getD numIds ∧
        (s.tqueueDequeue x.1 x.2).2.Fifo (update L x (L x).tail)) ∧
      ∀ x, ∀ pid ∈ L x, (s.tqueueRemove x.1 x.2 pid).Fifo (update L x ((L x).erase pid)) := by
  obtain ⟨L, h⟩ := linked_of_run hrun
  refine ⟨L, h.fifo, fun x pid hpid hfree => (h.enqueue hpid hfree x).fifo, fun x => ?_,
    fun x pid hin => (h.remove hin).fifo⟩
  obtain ⟨hfirst, hrest⟩ := h.dequeue x
  exact ⟨hfirst, hrest.fifo⟩

/-- Three threads in the ready queue of CPU 0; the middle one is removed. -/
theorem tqueue_fifo_middle :
    ∃ s, ReflTransGen QueueStep tqueueInit s ∧ s.queue (0, numIds) = [5, 9] ∧
      ∃ L, s.Fifo L ∧ L (⟨0, by decide⟩, Fin.last numIds) = [5, 9] := by
  have hone : QueueStep tqueueInit (tqueueInit.tqueueEnqueue 0 numIds 5) :=
    .enqueue (⟨0, by decide⟩, Fin.last numIds) (by decide) (by decide +kernel)
  have htwo : QueueStep _ ((tqueueInit.tqueueEnqueue 0 numIds 5).tqueueEnqueue 0 numIds 7) :=
    .enqueue (⟨0, by decide⟩, Fin.last numIds) (by decide) (by decide +kernel)
  have hthree : QueueStep _ (((tqueueInit.tqueueEnqueue 0 numIds 5).tqueueEnqueue 0 numIds
      7).tqueueEnqueue 0 numIds 9) :=
    .enqueue (⟨0, by decide⟩, Fin.last numIds) (by decide) (by decide +kernel)
  have hrem : QueueStep _ ((((tqueueInit.tqueueEnqueue 0 numIds 5).tqueueEnqueue 0 numIds
      7).tqueueEnqueue 0 numIds 9).tqueueRemove 0 numIds 7) :=
    .remove (⟨0, by decide⟩, Fin.last numIds) (by decide +kernel)
  have hrun := (((ReflTransGen.single hone).tail htwo).tail hthree).tail hrem
  obtain ⟨L, hL, -⟩ := tqueue_fifo hrun
  refine ⟨_, hrun, by decide +kernel, L, hL, ?_⟩
  rw [← hL.forward]
  decide +kernel

end Sched

end Mcertikos
