/-
The buddy allocator (`pmm.c`).

Blocks of `2 ^ order` pages, `order ≤ MAX_ORDER`, are kept on one circular list per
order.  `alloc_pages` takes the first block of the smallest order that has one and
splits it; `free_pages` merges a block with its buddy as long as the `order` and
`allocated` fields of the buddy say that it is free.  These fields go stale inside of
larger blocks, and `base_idx` is not updated while merging:

* `Inv.divides` — a stale `order` still divides its index, so a buddy index computed
  from a stale `base_idx` never passes the test, and merging just stops there;
* `Inv.buddy_free` — a buddy that passes the test is the head of a free block;
* `buddy_partition` — free and outstanding blocks tile the memory in every run.

Design notes: a `struct page *` is the index into `page_array`; the array is put at
`mem_start`, so its first element is the null pointer if that is `0`.  A page past
`num_pages` is never read.
-/
import Mcertikos.Lib.Dyadic
import Mcertikos.Lib.Ring

namespace Mcertikos

open List Relation Function Ring DyadicBlocks

/-- `MAX_ORDER`. -/
def maxOrder : ℕ := 10

/-- `PAGE_SIZE`. -/
def pageSize : ℕ := 4096

/-- `SUPER_PAGE_SIZE`. -/
def superPageSize : ℕ := pageSize * 2 ^ maxOrder

theorem pageSize_eq : pageSize = 4096 := rfl

theorem superPageSize_eq : superPageSize = 0x400000 := by decide

/-- A `struct list_head`: one of `free_lists`, or the `list` field of a page. -/
inductive ListNode where
  | head (order : ℕ)
  | page (i : ℕ)
  deriving DecidableEq, Repr

/-- `list_entry` for the nodes of pages; the first node of a list that is not empty is
never a list head. -/
def ListNode.entry : ListNode → ℕ
  | .page i => i
  | .head _ => 0

/-- The allocator's static data and the page metadata. -/
structure Buddy where
  memBase : ℕ
  numPages : ℕ
  allocated : ℕ → ℕ
  order : ℕ → ℕ
  links : Links ListNode

namespace Buddy

def setAllocated (s : Buddy) (page v : ℕ) : Buddy :=
  { s with allocated := update s.allocated page v }

def setOrder (s : Buddy) (page v : ℕ) : Buddy :=
  { s with order := update s.order page v }

/-- `list_add(&page->list, &free_lists[k])`. -/
def listAdd (s : Buddy) (page k : ℕ) : Buddy :=
  let l₁ := s.links.setNext (.page page) (s.links.next (.head k))
  let l₂ := l₁.setPrev (.page page) (.head k)
  let l₃ := l₂.setPrev (l₂.next (.head k)) (.page page)
  { s with links := l₃.setNext (.head k) (.page page) }

/-- `list_del(&page->list)`. -/
def listDel (s : Buddy) (page : ℕ) : Buddy :=
  let l₁ := s.links.setPrev (s.links.next (.page page)) (s.links.prev (.page page))
  { s with links := l₁.setNext (l₁.prev (.page page)) (l₁.next (.page page)) }

def listEmpty (s : Buddy) (k : ℕ) : Prop := s.links.next (.head k) = .head k

instance (s : Buddy) (k : ℕ) : Decidable (s.listEmpty k) := by
  unfold listEmpty
  infer_instance

/-- `page_to_phys`. -/
def pageToPhys (s : Buddy) (page : ℕ) : ℕ := (s.memBase + page * pageSize) % 2 ^ 32

/-- `phys_to_page`. -/
def physToPage (s : Buddy) (physAddr : ℕ) : Option ℕ :=
  if physAddr < s.memBase ∨ (s.memBase + s.numPages * pageSize) % 2 ^ 32 ≤ physAddr then none
  else some ((physAddr - s.memBase) / pageSize)

/-- The pointer to an element of `page_array` (16 bytes each), `none` if it is null. -/
def pointer (s : Buddy) (page : ℕ) : Option ℕ :=
  if s.memBase + 16 * page = 0 then none else some page

/-! ### `pmm_init` -/

/-- The loop over the whole super pages from `addr` on.  `n` bounds the rounds. -/
def addBlocks (memStart memEnd : ℕ) : ℕ → Buddy → ℕ → Buddy
  | 0, s, _ => s
  | n + 1, s, addr =>
    if addr < memEnd then
      let s₁ :=
        if (addr + superPageSize) % 2 ^ 32 ≤ memEnd then
          let page := (addr + 2 ^ 32 - memStart) % 2 ^ 32 / pageSize
          (s.setOrder page maxOrder).listAdd page maxOrder
        else s
      addBlocks memStart memEnd n s₁ ((addr + superPageSize) % 2 ^ 32)
    else s

/-- `pmm_init`.  Below `2 ^ 32` there are at most 1024 super pages. -/
def pmmInit (memStart memEnd : ℕ) : Buddy :=
  addBlocks memStart memEnd 1024
    { memBase := memStart
      numPages := (memEnd - memStart) / pageSize
      allocated := fun _ => 0
      order := fun _ => 0
      links := ⟨id, id⟩ }
    memStart

/-! ### `free_pages` -/

/-- The loop of `free_pages`: the block at its end, as `page` and `order`. -/
def coalesce (baseIdx : ℕ) : ℕ → Buddy → ℕ → ℕ → Buddy × ℕ × ℕ
  | 0, s, page, order => (s, page, order)
  | n + 1, s, page, order =>
    if order < maxOrder then
      let buddyIdx := baseIdx ^^^ 2 ^ order
      if s.numPages ≤ buddyIdx ∨ s.allocated buddyIdx ≠ 0 ∨ s.order buddyIdx ≠ order then
        (s, page, order)
      else
        let s₁ := s.listDel buddyIdx
        let page₁ := if buddyIdx < page then buddyIdx else page
        coalesce baseIdx n (s₁.setOrder page₁ (order + 1)) page₁ (order + 1)
    else (s, page, order)

/-- `free_pages`; every round of the loop raises the order. -/
def freePages (s : Buddy) (page : Option ℕ) (order : ℕ) : Buddy :=
  match page with
  | none => s
  | some page =>
    if s.allocated page = 0 ∨ maxOrder < order then s
    else
      let (s₁, page₁, order₁) := coalesce page maxOrder (s.setAllocated page 0) page order
      s₁.listAdd page₁ order₁

/-! ### `alloc_pages` -/

/-- The inner loop of `alloc_pages`: the upper halves go to the free lists. -/
def splitBlock (page order : ℕ) : ℕ → Buddy → Buddy
  | 0, s => s
  | curr + 1, s =>
    if order < curr + 1 then
      let buddy := page + 2 ^ curr
      splitBlock page order curr ((s.setOrder buddy curr).listAdd buddy curr)
    else s

/-- The body of the loop of `alloc_pages` for a list that is not empty.  Bit `0` of
`flags` is `PMM_SUPERPAGE`. -/
def takeBlock (s : Buddy) (order flags curr : ℕ) : Option ℕ × Buddy :=
  let page := (s.links.next (.head curr)).entry
  let s₁ := splitBlock page order curr (s.listDel page)
  let s₂ := (s₁.setAllocated page 1).setOrder page order
  if flags % 2 = 1 ∧ (order ≠ maxOrder ∨ s₂.pageToPhys page % superPageSize ≠ 0) then
    (none, s₂.freePages (s₂.pointer page) order)
  else (s₂.pointer page, s₂)

/-- The loop of `alloc_pages` from `curr` on; `n` bounds the rounds. -/
def findBlock (s : Buddy) (order flags : ℕ) : ℕ → ℕ → Option ℕ × Buddy
  | 0, _ => (none, s)
  | n + 1, curr =>
    if curr ≤ maxOrder then
      if s.listEmpty curr then findBlock s order flags n (curr + 1)
      else s.takeBlock order flags curr
    else (none, s)

/-- `alloc_pages`. -/
def allocPages (s : Buddy) (order flags : ℕ) : Option ℕ × Buddy :=
  if maxOrder < order then (none, s) else s.findBlock order flags (maxOrder + 1) order

/-! ### The invariant -/

/-- The blocks on the free lists. -/
def freeBlocks (free : ℕ → List ℕ) : List DyadicBlocks.Block :=
  (range (maxOrder + 1)).flatMap fun k => (free k).map fun i => (i, k)

/-- The invariant: `free` are the free lists, `out` the blocks handed out, `cur` the
block that the running call works on. -/
structure Inv (s : Buddy) (top : ℕ) (free : ℕ → List ℕ) (out cur : List DyadicBlocks.Block) : Prop where
  base : 0 < s.memBase
  whole : 2 ^ maxOrder ∣ top
  ring : ∀ k, k ≤ maxOrder → IsRing s.links (.head k) ((free k).map .page)
  tiling : Tiling (cur ++ out ++ freeBlocks free) top
  order : ∀ k, k ≤ maxOrder → ∀ i ∈ free k, s.order i = k
  outOrder : ∀ b ∈ out, b.2 ≤ maxOrder ∧ s.order b.1 = b.2
  allocated : ∀ i, s.allocated i ≠ 0 ↔ ∃ k, (i, k) ∈ out
  divides : ∀ i, 2 ^ s.order i ∣ i

variable {s : Buddy} {top : ℕ} {free : ℕ → List ℕ} {out cur : List DyadicBlocks.Block} {p q k : ℕ}

/-! ### Lists of blocks -/

variable {b : DyadicBlocks.Block} {j memStart memEnd order curr : ℕ}

theorem mem_freeBlocks {free : ℕ → List ℕ} :
    b ∈ freeBlocks free ↔ b.2 ≤ maxOrder ∧ b.1 ∈ free b.2 := by
  obtain ⟨i, k⟩ := b
  unfold freeBlocks
  simp only [mem_flatMap, mem_range, mem_map, Prod.mk.injEq]
  constructor
  · rintro ⟨k', hk, j, hj, rfl, rfl⟩
    exact ⟨by omega, hj⟩
  · rintro ⟨hk, hi⟩
    exact ⟨k, by omega, i, hi, rfl, rfl⟩

/-- One more element in one of the lists. -/
theorem flatMap_perm {α : Type*} {g g' : ℕ → List α} {x : α} {n k : ℕ} (hk : k < n)
    (hx : (g k).Perm (x :: g' k)) (ho : ∀ j, j ≠ k → g j = g' j) :
    ((range n).flatMap g).Perm (x :: (range n).flatMap g') := by
  induction n with
  | zero => omega
  | succ n ih =>
    rw [range_succ, flatMap_append, flatMap_append, flatMap_singleton, flatMap_singleton]
    by_cases he : k = n
    · subst he
      have hsame : (range k).flatMap g = (range k).flatMap g' :=
        flatMap_congr fun j hj => ho j (Nat.ne_of_lt (mem_range.mp hj))
      rw [hsame]
      exact (hx.append_left _).trans perm_middle
    · rw [ho n (Ne.symm he)]
      exact (ih (by omega)).append_right _

theorem freeBlocks_perm {free' : ℕ → List ℕ} (hk : k ≤ maxOrder) (hp : (free k).Perm (p :: free' k))
    (ho : ∀ j, j ≠ k → free j = free' j) :
    (freeBlocks free).Perm ((p, k) :: freeBlocks free') :=
  flatMap_perm (Nat.lt_succ_of_le hk) (hp.map _) fun j hj => by rw [ho j hj]

/-! ### The list operations -/

theorem listAdd_next (s : Buddy) (p k : ℕ) (x : ListNode) : (s.listAdd p k).links.next x
      = if x = .head k then .page p else if x = .page p then s.links.next (.head k)
        else s.links.next x := by
  simp [listAdd]

theorem listAdd_prev (s : Buddy) (p k : ℕ) (x : ListNode) : (s.listAdd p k).links.prev x
      = if x = s.links.next (.head k) then .page p else if x = .page p then .head k
        else s.links.prev x := by
  simp [listAdd]

theorem listDel_next (s : Buddy) (p : ℕ) (x : ListNode) : (s.listDel p).links.next x
      = if x = s.links.prev (.page p) then s.links.next (.page p) else s.links.next x := by
  simp [listDel]

theorem listDel_prev (s : Buddy) (p : ℕ) (x : ListNode) : (s.listDel p).links.prev x
      = if x = s.links.next (.page p) then s.links.prev (.page p) else s.links.prev x := by
  simp [listDel]

/-- A free list and its head. -/
def ringNodes (free : ℕ → List ℕ) (k : ℕ) : List ListNode := .head k :: (free k).map .page

theorem page_mem_ringNodes {free : ℕ → List ℕ} : .page p ∈ ringNodes free k ↔ p ∈ free k := by
  simp [ringNodes]

theorem head_mem_ringNodes {free : ℕ → List ℕ} : .head j ∈ ringNodes free k ↔ j = k := by
  simp [ringNodes]

/-- Free lists of different orders share no node. -/
theorem Inv.ring_unique (h : s.Inv top free out cur) {x : ListNode} (hk : k ≤ maxOrder)
    (hj : j ≤ maxOrder) (hxk : x ∈ ringNodes free k) (hxj : x ∈ ringNodes free j) : k = j := by
  cases x with
  | head i => rw [← head_mem_ringNodes.mp hxk, ← head_mem_ringNodes.mp hxj]
  | page i =>
    rw [← h.order k hk i (page_mem_ringNodes.mp hxk), ← h.order j hj i (page_mem_ringNodes.mp hxj)]

/-- No page of a block that is not free heads a free block. -/
theorem Inv.not_free (h : s.Inv top free out cur) (hb : b ∈ cur ++ out)
    (hp : Covers b p) (hk : k ≤ maxOrder) : p ∉ free k := by
  intro hfree
  have hapart := (pairwise_append.mp h.tiling.apart).2.2 b hb (p, k)
    (mem_freeBlocks.mpr ⟨hk, hfree⟩)
  exact hapart p hp (covers_start (p, k))

/-- `list_add` of a page that is on no list. -/
theorem Inv.ring_listAdd (h : s.Inv top free out cur) (hk : k ≤ maxOrder)
    (hp : ∀ j, j ≤ maxOrder → p ∉ free j) (hj : j ≤ maxOrder) :
    IsRing (s.listAdd p k).links (.head j) ((update free k (p :: free k) j).map .page) := by
  have hnext : s.links.next (.head k) ∈ ringNodes free k := (h.ring k hk).next_mem
  by_cases hjk : j = k
  · subst hjk
    rw [update_self, map_cons]
    have hne : s.links.next (.head j) ≠ .page p := fun he =>
      hp j hj (page_mem_ringNodes.mp (he ▸ hnext))
    refine (h.ring j hj).insert_front (fun hm => hp j hj (page_mem_ringNodes.mp hm)) ?_ ?_ ?_ ?_ ?_ ?_
    · rw [listAdd_next, if_pos rfl]
    · rw [listAdd_prev, if_neg (Ne.symm hne), if_pos rfl]
    · rw [listAdd_next, if_neg (by simp), if_pos rfl]
    · rw [listAdd_prev, if_pos rfl]
    · intro a ha hap
      rw [listAdd_next, if_neg ha, if_neg hap]
    · intro a ha hap
      rw [listAdd_prev, if_neg ha, if_neg hap]
  · rw [update_of_ne hjk]
    have hother : ∀ a ∈ ringNodes free j, a ∉ ringNodes free k ∧ a ≠ .page p := fun a ha =>
      ⟨fun ha' => hjk (h.ring_unique hj hk ha ha'),
        fun he => hp j hj (page_mem_ringNodes.mp (he ▸ ha))⟩
    refine (h.ring j hj).congr (fun a ha => ?_) fun a ha => ?_
    · obtain ⟨hak, hap⟩ := hother a ha
      have hh : a ≠ .head k := fun he => hak (by rw [he]; simp [ringNodes])
      rw [listAdd_next, if_neg hh, if_neg hap]
    · obtain ⟨hak, hap⟩ := hother a ha
      have hh : a ≠ s.links.next (.head k) := fun he => hak (he ▸ hnext)
      rw [listAdd_prev, if_neg hh, if_neg hap]

/-- `list_del` of a page on the list of order `k`. -/
theorem Inv.ring_listDel (h : s.Inv top free out cur) (hk : k ≤ maxOrder) {l1 l2 : List ℕ}
    (hp : free k = l1 ++ p :: l2) (hj : j ≤ maxOrder) :
    IsRing (s.listDel p).links (.head j) ((update free k (l1 ++ l2) j).map .page) := by
  have hr := h.ring k hk
  rw [hp, map_append, map_cons] at hr
  have hmem := hr.neighbours_mem
  by_cases hjk : j = k
  · subst hjk
    rw [update_self, map_append]
    refine hr.unlink ?_ ?_ ?_ ?_
    · rw [listDel_next, if_pos rfl]
    · rw [listDel_prev, if_pos rfl]
    · intro a ha _
      rw [listDel_next, if_neg ha]
    · intro a ha _
      rw [listDel_prev, if_neg ha]
  · rw [update_of_ne hjk]
    rw [← map_cons, ← map_append, ← hp] at hmem
    have hother : ∀ a ∈ ringNodes free j, a ∉ ringNodes free k := fun a ha ha' =>
      hjk (h.ring_unique hj hk ha ha')
    refine (h.ring j hj).congr (fun a ha => ?_) fun a ha => ?_
    · have hne : a ≠ s.links.prev (.page p) := fun he => hother a ha (he ▸ hmem.1)
      rw [listDel_next, if_neg hne]
    · have hne : a ≠ s.links.next (.page p) := fun he => hother a ha (he ▸ hmem.2)
      rw [listDel_prev, if_neg hne]

/-! ### What one step of a call does to the blocks -/

theorem mem_update_cons {free : ℕ → List ℕ} {i : ℕ} :
    i ∈ update free k (p :: free k) j ↔ j = k ∧ i = p ∨ i ∈ free j := by
  by_cases hjk : j = k
  · subst hjk
    simp
  · simp [hjk]

/-- A page is taken off its free list. -/
theorem Inv.take (h : s.Inv top free out cur) (hk : k ≤ maxOrder) {l1 l2 : List ℕ}
    (hp : free k = l1 ++ p :: l2) :
    (s.listDel p).Inv top (update free k (l1 ++ l2)) out ((p, k) :: cur) where
  base := h.base
  whole := h.whole
  ring := fun _ hj => h.ring_listDel hk hp hj
  tiling := by
    have hperm : (freeBlocks free).Perm
        ((p, k) :: freeBlocks (update free k (l1 ++ l2))) := by
      refine freeBlocks_perm hk ?_ fun j hj => (update_of_ne hj _ _).symm
      rw [hp, update_self]
      exact perm_middle
    exact h.tiling.perm ((hperm.append_left _).trans perm_middle)
  order := fun j hj i hi => by
    refine h.order j hj i ?_
    by_cases hjk : j = k
    · subst hjk
      rw [update_self] at hi
      rw [hp]
      simp only [mem_append, mem_cons] at hi ⊢
      tauto
    · rwa [update_of_ne hjk] at hi
  outOrder := h.outOrder
  allocated := h.allocated
  divides := h.divides

/-- The `order` field of a page that heads no free and no outstanding block is set. -/
theorem Inv.setOrder (h : s.Inv top free out cur) (hfree : ∀ j, j ≤ maxOrder → p ∉ free j)
    (hout : ∀ b ∈ out, b.1 ≠ p) (hdvd : 2 ^ k ∣ p) : (s.setOrder p k).Inv top free out cur where
  base := h.base
  whole := h.whole
  ring := h.ring
  tiling := h.tiling
  order := fun j hj i hi => by
    have hip : i ≠ p := fun he => hfree j hj (he ▸ hi)
    exact (update_of_ne hip _ _).trans (h.order j hj i hi)
  outOrder := fun b hb =>
    ⟨(h.outOrder b hb).1, (update_of_ne (hout b hb) _ _).trans (h.outOrder b hb).2⟩
  allocated := h.allocated
  divides := fun i => by
    by_cases hip : i = p
    · subst hip
      have hnew : (s.setOrder i k).order i = k := update_self ..
      rw [hnew]
      exact hdvd
    · have hold : (s.setOrder p k).order i = s.order i := update_of_ne hip _ _
      rw [hold]
      exact h.divides i

/-- A block goes to the list of its order. -/
theorem Inv.give (h : s.Inv top free out ((p, k) :: cur)) (hk : k ≤ maxOrder) (ho : s.order p = k) :
    (s.listAdd p k).Inv top (update free k (p :: free k)) out cur where
  base := h.base
  whole := h.whole
  ring := fun _ hj => h.ring_listAdd hk
    (fun _ hj' => h.not_free (mem_cons_self ..) (covers_start (p, k)) hj') hj
  tiling := by
    have hperm : (freeBlocks (update free k (p :: free k))).Perm
        ((p, k) :: freeBlocks free) := by
      refine freeBlocks_perm hk ?_ fun j hj => update_of_ne hj _ _
      rw [update_self]
    exact h.tiling.perm (perm_middle.symm.trans (hperm.symm.append_left _))
  order := fun j hj i hi => by
    rcases mem_update_cons.mp hi with ⟨rfl, rfl⟩ | hi
    · exact ho
    · exact h.order j hj i hi
  outOrder := h.outOrder
  allocated := h.allocated
  divides := h.divides

/-- No outstanding block starts inside the block of the running call. -/
theorem Inv.out_ne (h : s.Inv top free out cur) {c : DyadicBlocks.Block} (hb : b ∈ cur) (hp : Covers b p)
    (hc : c ∈ out) : c.1 ≠ p := by
  rintro rfl
  have hapart := (pairwise_append.mp (pairwise_append.mp h.tiling.apart).1).2.2 b hb c hc
  exact hapart _ hp (covers_start c)

/-- **One round of splitting.** -/
theorem Inv.split (h : s.Inv top free out [(p, k + 1)]) (hk : k + 1 ≤ maxOrder) :
    ((s.setOrder (p + 2 ^ k) k).listAdd (p + 2 ^ k) k).Inv top
      (update free k ((p + 2 ^ k) :: free k)) out [(p, k)] := by
  have hcov : Covers (p, k + 1) (p + 2 ^ k) :=
    (covers_halves p k _).mpr (.inr (covers_start (p + 2 ^ k, k)))
  have htile : Tiling ((p + 2 ^ k, k) :: (p, k) :: (out ++ freeBlocks free)) top :=
    (Tiling.split h.tiling).perm (Perm.swap ..)
  have hdvd : 2 ^ k ∣ p + 2 ^ k := htile.aligned (p + 2 ^ k, k) (mem_cons_self ..)
  have hset := h.setOrder (k := k) (fun j hj => h.not_free (mem_cons_self ..) hcov hj)
    (fun b hb => h.out_ne (mem_cons_self ..) hcov hb) hdvd
  have hboth : (s.setOrder (p + 2 ^ k) k).Inv top free out [(p + 2 ^ k, k), (p, k)] :=
    { hset with tiling := htile }
  exact hboth.give (by omega) (update_self ..)

/-- The block of the running call is handed out. -/
theorem Inv.grant (h : s.Inv top free out [(p, k)]) (hk : k ≤ maxOrder) :
    ((s.setAllocated p 1).setOrder p k).Inv top free ((p, k) :: out) [] := by
  have hcov := covers_start (p, k)
  have hset := h.setOrder (k := k) (fun j hj => h.not_free (mem_cons_self ..) hcov hj)
    (fun b hb => h.out_ne (mem_cons_self ..) hcov hb)
    (h.tiling.aligned (p, k) (mem_cons_self ..))
  refine { hset with tiling := h.tiling, outOrder := fun b hb => ?_, allocated := fun i => ?_ }
  · rcases mem_cons.mp hb with rfl | hb
    · exact ⟨hk, update_self ..⟩
    · exact hset.outOrder b hb
  · by_cases hip : i = p
    · subst hip
      have hnew : ((s.setAllocated i 1).setOrder i k).allocated i = 1 := update_self ..
      rw [hnew]
      exact ⟨fun _ => ⟨k, mem_cons_self ..⟩, fun _ => one_ne_zero⟩
    · have hold : ((s.setAllocated p 1).setOrder p k).allocated i = s.allocated i :=
        update_of_ne hip _ _
      rw [hold, h.allocated i]
      simp [hip]

/-- A block that was handed out comes back. -/
theorem Inv.retire (h : s.Inv top free out []) (hb : (p, k) ∈ out) :
    (s.setAllocated p 0).Inv top free (out.erase (p, k)) [(p, k)] := by
  have hperm := perm_cons_erase hb
  have htile := h.tiling.perm (hperm.append_right (freeBlocks free))
  have hnd := (nodup_append.mp h.tiling.nodup).1
  refine { h with tiling := htile, outOrder := fun b hb' => ?_, allocated := fun i => ?_ }
  · exact h.outOrder b (mem_of_mem_erase hb')
  · by_cases hip : i = p
    · subst hip
      have hnew : (s.setAllocated i 0).allocated i = 0 := update_self ..
      rw [hnew]
      refine ⟨fun hne => absurd rfl hne, fun ⟨j, hj⟩ => ?_⟩
      have heq := h.tiling.eq_of_overlap (mem_append_left _ (mem_of_mem_erase hj))
        (mem_append_left _ hb) (covers_start (i, j)) (covers_start (i, k))
      rw [heq] at hj
      exact absurd hj hnd.not_mem_erase
    · have hold : (s.setAllocated p 0).allocated i = s.allocated i :=
        update_of_ne hip _ _
      have hmem : ∀ j, (i, j) ∈ out.erase (p, k) ↔ (i, j) ∈ out := fun j =>
        mem_erase_of_ne (by simp [hip])
      rw [hold, h.allocated i]
      simp only [hmem]

/-- **A buddy that passes the test heads a free block.** -/
theorem Inv.buddy_free (h : s.Inv top free out [(p, k)]) (hk : k < maxOrder)
    (ha : s.allocated (p ^^^ 2 ^ k) = 0) (ho : s.order (p ^^^ 2 ^ k) = k) :
    p ^^^ 2 ^ k ∈ free k := by
  obtain ⟨j, hj, hmem⟩ := h.tiling.buddy_start ((pow_dvd_pow 2 hk).trans h.whole) (mem_cons_self ..)
  simp only [cons_append, nil_append, mem_cons, mem_append] at hmem
  rcases hmem with heq | hmem | hmem
  · exact absurd (congrArg Prod.fst heq) (buddy_ne p k)
  · exact absurd ha ((h.allocated _).mpr ⟨j, hmem⟩)
  · obtain ⟨hjm, hmem⟩ := mem_freeBlocks.mp hmem
    have hjk : k = j := ho.symm.trans (h.order j hjm _ hmem)
    subst hjk
    exact hmem

/-- **One round of merging.** -/
theorem Inv.merge (h : s.Inv top free out [(p, k)]) (hk : k < maxOrder)
    (hq : p ^^^ 2 ^ k ∈ free k) :
    ∃ l1 l2, free k = l1 ++ (p ^^^ 2 ^ k) :: l2 ∧
      ((s.listDel (p ^^^ 2 ^ k)).setOrder (if p ^^^ 2 ^ k < p then p ^^^ 2 ^ k else p)
        (k + 1)).Inv top (update free k (l1 ++ l2)) out
        [(if p ^^^ 2 ^ k < p then p ^^^ 2 ^ k else p, k + 1)] := by
  obtain ⟨l1, l2, hl⟩ := append_of_mem hq
  have htake := h.take (le_of_lt hk) hl
  set free' := update free k (l1 ++ l2)
  have hdvd : 2 ^ k ∣ p := h.tiling.aligned (p, k) (mem_cons_self ..)
  -- the lower of the two, its order and the merged block
  have hmerged : Tiling ((if p ^^^ 2 ^ k < p then p ^^^ 2 ^ k else p, k + 1) ::
      (out ++ freeBlocks free')) top := by
    rcases buddy_cases hdvd with ⟨hd, he⟩ | ⟨hd, he⟩
    · rw [if_neg (by omega)]
      refine Tiling.merge (htake.tiling.perm ?_) hd
      rw [he]
      exact Perm.swap ..
    · rw [if_pos (by omega)]
      refine Tiling.merge ?_ hd
      rw [← he]
      exact htake.tiling
  refine ⟨l1, l2, hl, ?_⟩
  generalize hr : (if p ^^^ 2 ^ k < p then p ^^^ 2 ^ k else p) = r at hmerged ⊢
  have hmem : (r, k) ∈ [(p ^^^ 2 ^ k, k), (p, k)] := by
    rw [← hr]
    split <;> simp
  have hset := htake.setOrder (k := k + 1)
    (fun j hj => htake.not_free (mem_append_left _ hmem) (covers_start (r, k)) hj)
    (fun b hb => htake.out_ne hmem (covers_start (r, k)) hb)
    (hmerged.aligned (r, k + 1) (mem_cons_self ..))
  exact { hset with tiling := hmerged }

/-! ### Base address and size -/

/-- The calls do not change the base address and the number of pages. -/
def SameArena (s s' : Buddy) : Prop := s'.memBase = s.memBase ∧ s'.numPages = s.numPages

theorem SameArena.trans {s1 s2 s3 : Buddy} (h : SameArena s1 s2) (h' : SameArena s2 s3) :
    SameArena s1 s3 := ⟨h'.1.trans h.1, h'.2.trans h.2⟩

theorem sameArena_coalesce {baseIdx : ℕ} (n : ℕ) : ∀ (s : Buddy) (p k : ℕ),
    SameArena s (coalesce baseIdx n s p k).1 := by
  induction n with
  | zero => exact fun _ _ _ => ⟨rfl, rfl⟩
  | succ n ih =>
    intro s p k
    rw [coalesce]
    dsimp only
    split
    · split
      · exact ⟨rfl, rfl⟩
      · exact SameArena.trans ⟨rfl, rfl⟩ (ih _ _ _)
    · exact ⟨rfl, rfl⟩

theorem sameArena_freePages (s : Buddy) (page : Option ℕ) (k : ℕ) :
    SameArena s (s.freePages page k) := by
  unfold freePages
  cases page with
  | none => exact ⟨rfl, rfl⟩
  | some p =>
    dsimp only
    split
    · exact ⟨rfl, rfl⟩
    · exact SameArena.trans ⟨rfl, rfl⟩ (sameArena_coalesce maxOrder (s.setAllocated p 0) p k)

theorem sameArena_splitBlock (p order curr : ℕ) : ∀ s : Buddy,
    SameArena s (splitBlock p order curr s) := by
  induction curr with
  | zero => exact fun _ => ⟨rfl, rfl⟩
  | succ curr ih =>
    intro s
    rw [splitBlock]
    split
    · exact SameArena.trans ⟨rfl, rfl⟩ (ih _)
    · exact ⟨rfl, rfl⟩

theorem sameArena_takeBlock (s : Buddy) (order flags curr : ℕ) :
    SameArena s (s.takeBlock order flags curr).2 := by
  have hsplit := sameArena_splitBlock (s.links.next (.head curr)).entry order curr
    (s.listDel (s.links.next (.head curr)).entry)
  unfold takeBlock
  dsimp only
  split
  · exact SameArena.trans hsplit (SameArena.trans ⟨rfl, rfl⟩ (sameArena_freePages _ _ _))
  · exact hsplit

theorem sameArena_allocPages (s : Buddy) (order flags : ℕ) :
    SameArena s (s.allocPages order flags).2 := by
  have hloop : ∀ n curr, SameArena s (s.findBlock order flags n curr).2 := by
    intro n
    induction n with
    | zero => exact fun _ => ⟨rfl, rfl⟩
    | succ n ih =>
      intro curr
      rw [findBlock]
      split
      · split
        · exact ih _
        · exact sameArena_takeBlock s order flags curr
      · exact ⟨rfl, rfl⟩
  unfold allocPages
  split
  · exact ⟨rfl, rfl⟩
  · exact hloop _ _

theorem sameArena_addBlocks (n : ℕ) : ∀ (s : Buddy) (addr : ℕ),
    SameArena s (addBlocks memStart memEnd n s addr) := by
  induction n with
  | zero => exact fun _ _ => ⟨rfl, rfl⟩
  | succ n ih =>
    intro s addr
    rw [addBlocks]
    dsimp only
    split
    · refine SameArena.trans ?_ (ih _ _)
      split
      · exact ⟨rfl, rfl⟩
      · exact ⟨rfl, rfl⟩
    · exact ⟨rfl, rfl⟩

/-! ### The calls -/

/-- How the loop of `free_pages` ends: with which block, and which lists it has left.  Only
blocks of orders below the largest were taken off; and if `baseIdx` is still the index of the
block, its buddy is not free. -/
structure Coalesced (top : ℕ) (free : ℕ → List ℕ) (out : List DyadicBlocks.Block)
    (baseIdx numPages p k : ℕ) (r : Buddy × ℕ × ℕ) (free' : ℕ → List ℕ) : Prop where
  inv : r.1.Inv top free' out [(r.2.1, r.2.2)]
  le : r.2.2 ≤ maxOrder
  order : r.1.order r.2.1 = r.2.2
  sub : ∀ j, ∀ i ∈ free' j, i ∈ free j
  supers : free' maxOrder = free maxOrder
  start : r.2.1 = p ∨ ∃ j < maxOrder, r.2.1 ∈ free j
  grows : k ≤ r.2.2 ∧ ∀ x, Covers (p, k) x → Covers (r.2.1, r.2.2) x
  index : 2 ^ r.2.2 ∣ baseIdx → r.2.1 = baseIdx
  stop : top ≤ numPages → r.2.2 < maxOrder → 2 ^ r.2.2 ∣ baseIdx →
    r.2.1 ^^^ 2 ^ r.2.2 ∉ free' r.2.2

theorem mem_of_mem_update {l : List ℕ} {i : ℕ} (hl : ∀ x ∈ l, x ∈ free k)
    (hi : i ∈ update free k l j) : i ∈ free j := by
  by_cases hjk : j = k
  · subst hjk
    rw [update_self] at hi
    exact hl i hi
  · rwa [update_of_ne hjk] at hi

/-- No free block passes `top`. -/
theorem Inv.lt_top (h : s.Inv top free out cur) (hk : k ≤ maxOrder) (hp : p ∈ free k) : p < top :=
  (h.tiling.cover p).mpr
    ⟨(p, k), mem_append_right _ (mem_freeBlocks.mpr ⟨hk, hp⟩), covers_start (p, k)⟩

theorem Inv.allocated_free (h : s.Inv top free out cur) (hk : k ≤ maxOrder) (hp : p ∈ free k) :
    s.allocated p = 0 := by
  by_contra ha
  obtain ⟨j, hj⟩ := (h.allocated p).mp ha
  exact h.not_free (mem_append_right _ hj) (covers_start (p, j)) hk hp

/-- **The loop of `free_pages`.**  As long as `baseIdx` is a multiple of the block's
size it is the block's index, and otherwise no page passes the test. -/
theorem Inv.coalesce {baseIdx : ℕ} (n : ℕ) : ∀ {s : Buddy} {free : ℕ → List ℕ} {p k : ℕ},
    s.Inv top free out [(p, k)] → k ≤ maxOrder → maxOrder ≤ k + n → s.order p = k →
    (2 ^ k ∣ baseIdx → p = baseIdx) →
    ∃ free', Coalesced top free out baseIdx s.numPages p k (coalesce baseIdx n s p k) free' := by
  induction n with
  | zero =>
    intro s free p k h hk hn ho hbase
    exact ⟨free, h, hk, ho, fun _ _ => id, rfl, .inl rfl, ⟨le_refl k, fun _ => id⟩, hbase,
      fun _ hlt => absurd hlt (Nat.not_lt.mpr hn)⟩
  | succ n ih =>
    intro s free p k h hk hn ho hbase
    by_cases hlt : k < maxOrder
    swap
    · rw [Buddy.coalesce, if_neg hlt]
      exact ⟨free, h, hk, ho, fun _ _ => id, rfl, .inl rfl,
        ⟨le_refl k, fun _ => id⟩, hbase, fun _ hlt' => absurd hlt' hlt⟩
    by_cases hstop : s.numPages ≤ baseIdx ^^^ 2 ^ k ∨ s.allocated (baseIdx ^^^ 2 ^ k) ≠ 0 ∨
        s.order (baseIdx ^^^ 2 ^ k) ≠ k
    · rw [Buddy.coalesce, if_pos hlt]
      simp only [if_pos hstop]
      refine ⟨free, h, hk, ho, fun _ _ => id, rfl, .inl rfl,
        ⟨le_refl k, fun _ => id⟩, hbase, fun htop _ hdvd hfree => ?_⟩
      -- a free buddy would have passed
      dsimp only at hfree hdvd
      rw [hbase hdvd] at hfree
      have hroom := (h.lt_top hk hfree).trans_le htop
      rcases hstop with hs | hs | hs
      · exact absurd hroom (Nat.not_lt.mpr hs)
      · exact hs (h.allocated_free hk hfree)
      · exact hs (h.order k hk _ hfree)
    · rw [Buddy.coalesce, if_pos hlt]
      simp only [if_neg hstop]
      push Not at hstop
      obtain ⟨-, ha, hord⟩ := hstop
      -- the order field of the buddy divides its index
      have hdvd : 2 ^ k ∣ baseIdx := by
        refine dvd_of_dvd_buddy ?_
        have := h.divides (baseIdx ^^^ 2 ^ k)
        rwa [hord] at this
      obtain rfl := hbase hdvd
      have hbuddy := h.buddy_free hlt ha hord
      obtain ⟨l1, l2, hl, hmerge⟩ := h.merge hlt hbuddy
      have hsub : ∀ x ∈ l1 ++ l2, x ∈ free k := by
        intro x hx
        rw [hl]
        simp only [mem_append, mem_cons] at hx ⊢
        tauto
      obtain ⟨free', hc⟩ := ih hmerge hlt (by omega) (update_self ..) fun hd => by
        rcases buddy_cases hdvd with ⟨-, he⟩ | ⟨hd', he⟩
        · rw [if_neg (by omega)]
        · rw [he] at hd
          exact absurd hd (not_dvd_add hd')
      refine ⟨free', hc.inv, hc.le, hc.order, fun j i hi => mem_of_mem_update hsub (hc.sub j i hi),
        ?_, ?_, ⟨(Nat.le_succ k).trans hc.grows.1, fun x hx => hc.grows.2 x ?_⟩, hc.index, hc.stop⟩
      · rw [hc.supers, update_of_ne (by omega)]
      · rcases hc.start with he | ⟨j, hj, hi⟩
        · rw [he]
          split
          · exact .inr ⟨k, hlt, hbuddy⟩
          · exact .inl rfl
        · exact .inr ⟨j, hj, mem_of_mem_update hsub hi⟩
      · -- the merged block
        rcases buddy_cases hdvd with ⟨-, he⟩ | ⟨-, he⟩
        · rw [if_neg (by omega)]
          exact (covers_halves _ k x).mpr (.inl hx)
        · rw [if_pos (by omega)]
          refine (covers_halves _ k x).mpr (.inr ?_)
          rw [← he]
          exact hx

/-- **`free_pages`** of an outstanding block with its order: the block the loop ends with goes
to the list of its order. -/
theorem Inv.freePages_coalesced (h : s.Inv top free out []) (hb : (p, k) ∈ out) :
    ∃ free' q m s1, Coalesced top free (out.erase (p, k)) p s.numPages p k (s1, q, m) free' ∧
      (s.freePages (some p) k).Inv top (update free' m (q :: free' m)) (out.erase (p, k)) [] := by
  obtain ⟨hk, ho⟩ := h.outOrder _ hb
  have halloc : s.allocated p ≠ 0 := (h.allocated p).mpr ⟨k, hb⟩
  obtain ⟨free', hc⟩ := (h.retire hb).coalesce maxOrder hk (Nat.le_add_left ..) ho fun _ => rfl
  have hstep : s.freePages (some p) k =
      (Buddy.coalesce p maxOrder (s.setAllocated p 0) p k).1.listAdd
        (Buddy.coalesce p maxOrder (s.setAllocated p 0) p k).2.1
        (Buddy.coalesce p maxOrder (s.setAllocated p 0) p k).2.2 := by
    unfold Buddy.freePages
    dsimp only at hk ⊢
    rw [if_neg (by omega)]
  rw [hstep]
  exact ⟨free', _, _, _, hc, hc.inv.give hc.le hc.order⟩

theorem Inv.freePages (h : s.Inv top free out []) (hb : (p, k) ∈ out) :
    ∃ free', (s.freePages (some p) k).Inv top free' (out.erase (p, k)) [] := by
  obtain ⟨free', q, m, s1, -, hinv⟩ := h.freePages_coalesced hb
  exact ⟨_, hinv⟩

/-- Outstanding blocks with different heads are all that is left. -/
theorem Inv.erase_eq_filter (h : s.Inv top free out []) (hb : (p, k) ∈ out) :
    out.erase (p, k) = out.filter fun b => b.1 ≠ p := by
  have hnd : out.Nodup := (nodup_append.mp h.tiling.nodup).1
  rw [Nodup.erase_eq_filter hnd]
  refine filter_congr fun b hb' => ?_
  by_cases hp : b.1 = p
  · have hcov : Covers b p := hp ▸ covers_start b
    have heq := h.tiling.eq_of_overlap (mem_append_left _ hb') (mem_append_left _ hb)
      hcov (covers_start (p, k))
    simp [heq]
  · have hne : b ≠ (p, k) := fun he => hp (congrArg Prod.fst he)
    simp [hp, hne]

/-- The lists after blocks were split off from the one at `p`: upper halves are new, and the
list of the largest order is as before. -/
def SplitOff (free : ℕ → List ℕ) (p : ℕ) (free' : ℕ → List ℕ) : Prop :=
  (∀ j, ∀ i ∈ free' j, i ∈ free j ∨ i = p + 2 ^ j ∧ 2 ^ (j + 1) ∣ p) ∧
    free' maxOrder = free maxOrder

/-- The lists after the blocks of orders `k` up to `c` were split off from the one at `p`. -/
def splitLists (free : ℕ → List ℕ) (p k c : ℕ) : ℕ → List ℕ :=
  fun j => if k ≤ j ∧ j < c then (p + 2 ^ j) :: free j else free j

theorem splitLists_self (free : ℕ → List ℕ) (p c : ℕ) : splitLists free p c c = free := by
  funext j
  exact if_neg (by omega)

/-- The upper half is the block of the largest order. -/
theorem splitLists_succ {c : ℕ} (hkc : k ≤ c) :
    splitLists (update free c ((p + 2 ^ c) :: free c)) p k c = splitLists free p k (c + 1) := by
  funext j
  unfold splitLists
  by_cases hj : j = c
  · subst hj
    rw [if_neg (by omega), if_pos (by omega), update_self]
  · rw [update_of_ne hj]
    exact if_congr (by omega) rfl rfl

theorem splitOff_splitLists {c : ℕ} (hc : c ≤ maxOrder) (hd : 2 ^ c ∣ p) :
    SplitOff free p (splitLists free p k c) := by
  refine ⟨fun j i hi => ?_, if_neg (by omega)⟩
  unfold splitLists at hi
  by_cases hj : k ≤ j ∧ j < c
  · rw [if_pos hj] at hi
    rcases mem_cons.mp hi with rfl | hi
    · exact .inr ⟨rfl, (pow_dvd_pow 2 hj.2).trans hd⟩
    · exact .inl hi
  · rw [if_neg hj] at hi
    exact .inl hi

/-- **The splitting loop.** -/
theorem Inv.splitBlock (curr : ℕ) : ∀ {s : Buddy} {free : ℕ → List ℕ},
    s.Inv top free out [(p, curr)] → curr ≤ maxOrder → order ≤ curr →
    (splitBlock p order curr s).Inv top (splitLists free p order curr) out [(p, order)] := by
  induction curr with
  | zero =>
    intro s free h _ hle
    rw [Nat.le_zero.mp hle, splitLists_self]
    exact h
  | succ curr ih =>
    intro s free h hk hle
    rw [Buddy.splitBlock]
    by_cases hlt : order < curr + 1
    · have hinv := ih (h.split hk) (by omega) (by omega)
      rw [splitLists_succ (by omega)] at hinv
      rw [if_pos hlt]
      exact hinv
    · rw [if_neg hlt, show order = curr + 1 by omega, splitLists_self]
      exact h

theorem Inv.pointer (h : s.Inv top free out cur) (p : ℕ) : s.pointer p = some p := by
  have := h.base
  exact if_neg (by omega)

/-- What a call of `alloc_pages` may do: nothing changes for the callers, or a new block
is handed out. -/
def Granted (top : ℕ) (out : List DyadicBlocks.Block) (order : ℕ) (r : Option ℕ × Buddy) : Prop :=
  (r.1 = none ∧ ∃ free', r.2.Inv top free' out []) ∨
    ∃ p, r.1 = some p ∧ ∃ free', r.2.Inv top free' ((p, order) :: out) []

/-- A list that is not empty has a first page. -/
theorem Inv.first_page (h : s.Inv top free out cur) (hk : k ≤ maxOrder) (hne : ¬ s.listEmpty k) :
    ∃ p l, free k = p :: l ∧ (s.links.next (.head k)).entry = p := by
  cases hf : free k with
  | nil =>
    have hr := h.ring k hk
    rw [hf] at hr
    exact absurd (by simpa [listEmpty] using hr.next_mem) hne
  | cons p l =>
    have hc := (h.ring k hk).chain
    rw [hf, map_cons, cons_append, isChain_cons_cons] at hc
    refine ⟨p, l, rfl, ?_⟩
    rw [hc.1.1]
    rfl

/-- **A block is taken from the list of order `curr`.**  It is handed out, or, as a super page
that is not aligned, freed again. -/
theorem Inv.takeBlock_lists (h : s.Inv top free out []) (flags : ℕ)
    (hle : order ≤ curr) (hcurr : curr ≤ maxOrder) (hne : ¬ s.listEmpty curr) :
    ∃ p l s', free curr = p :: l ∧ SameArena s s' ∧
      s'.Inv top (splitLists (update free curr l) p order curr) ((p, order) :: out) [] ∧
      s.takeBlock order flags curr =
        if flags % 2 = 1 ∧ (order ≠ maxOrder ∨ s'.pageToPhys p % superPageSize ≠ 0) then
          (none, s'.freePages (some p) order)
        else (some p, s') := by
  obtain ⟨p, l, hl, hentry⟩ := h.first_page hcurr hne
  have htake : (s.listDel p).Inv top (update free curr ([] ++ l)) out [(p, curr)] :=
    h.take hcurr hl
  have hgrant := (htake.splitBlock curr hcurr hle).grant (hle.trans hcurr)
  refine ⟨p, l, _, hl, ?_, hgrant, ?_⟩
  · exact sameArena_splitBlock p order curr (s.listDel p)
  · unfold Buddy.takeBlock
    rw [hentry]
    dsimp only
    rw [hgrant.pointer]

/-- What the lists after `takeBlock` have in common with those before. -/
theorem Inv.takeBlock_split (h : s.Inv top free out []) (flags : ℕ)
    (hle : order ≤ curr) (hcurr : curr ≤ maxOrder) (hne : ¬ s.listEmpty curr) :
    ∃ p l free' s', free curr = p :: l ∧ SameArena s s' ∧
      s'.Inv top free' ((p, order) :: out) [] ∧ SplitOff (update free curr l) p free' ∧
      s.takeBlock order flags curr =
        if flags % 2 = 1 ∧ (order ≠ maxOrder ∨ s'.pageToPhys p % superPageSize ≠ 0) then
          (none, s'.freePages (some p) order)
        else (some p, s') := by
  obtain ⟨p, l, s', hl, harena, hinv, he⟩ := h.takeBlock_lists flags hle hcurr hne
  have hmem : p ∈ free curr := by
    rw [hl]
    exact mem_cons_self ..
  have hd : 2 ^ curr ∣ p := h.tiling.aligned (p, curr)
    (mem_append_right _ (mem_freeBlocks.mpr ⟨hcurr, hmem⟩))
  exact ⟨p, l, _, s', hl, harena, hinv, splitOff_splitLists hcurr hd, he⟩

theorem Inv.takeBlock (h : s.Inv top free out []) {flags : ℕ} (hle : order ≤ curr)
    (hcurr : curr ≤ maxOrder) (hne : ¬ s.listEmpty curr) :
    Granted top out order (s.takeBlock order flags curr) := by
  obtain ⟨p, l, free', s', -, -, hgrant, -, he⟩ := h.takeBlock_split flags hle hcurr hne
  rw [he]
  split
  · -- the super page is not aligned
    obtain ⟨free'', hfree⟩ := hgrant.freePages (mem_cons_self ..)
    rw [erase_cons_head] at hfree
    exact .inl ⟨rfl, free'', hfree⟩
  · exact .inr ⟨p, rfl, free', hgrant⟩

/-- `alloc_pages` takes a block from the first list that is not empty, or there is none. -/
theorem allocPages_cases (s : Buddy) (flags : ℕ) (hk : order ≤ maxOrder) :
    ((∀ k, order ≤ k → k ≤ maxOrder → s.listEmpty k) ∧ s.allocPages order flags = (none, s)) ∨
    ∃ curr, order ≤ curr ∧ curr ≤ maxOrder ∧ ¬ s.listEmpty curr ∧
      (∀ k, order ≤ k → k < curr → s.listEmpty k) ∧
      s.allocPages order flags = s.takeBlock order flags curr := by
  have hloop : ∀ n c, order ≤ c → maxOrder < c + n → (∀ k, order ≤ k → k < c → s.listEmpty k) →
      ((∀ k, order ≤ k → k ≤ maxOrder → s.listEmpty k) ∧
        s.findBlock order flags n c = (none, s)) ∨
      ∃ curr, order ≤ curr ∧ curr ≤ maxOrder ∧ ¬ s.listEmpty curr ∧
        (∀ k, order ≤ k → k < curr → s.listEmpty k) ∧
        s.findBlock order flags n c = s.takeBlock order flags curr := by
    intro n
    induction n with
    | zero => exact fun c _ hn hall => .inl ⟨fun k hk hk' => hall k hk (by omega), rfl⟩
    | succ n ih =>
      intro c hc hn hall
      rw [findBlock]
      by_cases hcm : c ≤ maxOrder
      · rw [if_pos hcm]
        by_cases hempty : s.listEmpty c
        · rw [if_pos hempty]
          refine ih (c + 1) (by omega) (by omega) fun k hk hk' => ?_
          rcases Nat.lt_succ_iff_lt_or_eq.mp hk' with hlt | rfl
          · exact hall k hk hlt
          · exact hempty
        · rw [if_neg hempty]
          exact .inr ⟨c, hc, hcm, hempty, hall, rfl⟩
      · rw [if_neg hcm]
        exact .inl ⟨fun k hk hk' => hall k hk (by omega), rfl⟩
  have hstart := hloop (maxOrder + 1) order (le_refl _) (by omega) fun k hk hk' => by omega
  unfold Buddy.allocPages
  rw [if_neg (by omega)]
  exact hstart

/-- **`alloc_pages`** hands out a new block or changes nothing for its callers. -/
theorem Inv.allocPages (h : s.Inv top free out []) (order flags : ℕ) :
    Granted top out order (s.allocPages order flags) := by
  by_cases hk : order ≤ maxOrder
  · rcases s.allocPages_cases flags hk with ⟨-, he⟩ | ⟨curr, hle, hcurr, hne, -, he⟩
    · rw [he]
      exact .inl ⟨rfl, free, h⟩
    · rw [he]
      exact h.takeBlock hle hcurr hne
  · unfold Buddy.allocPages
    rw [if_pos (by omega)]
    exact .inl ⟨rfl, free, h⟩

/-! ### `pmm_init` -/

theorem inv_empty {memBase numPages : ℕ} (hbase : 0 < memBase) :
    Inv ⟨memBase, numPages, fun _ => 0, fun _ => 0, ⟨id, id⟩⟩ 0 (fun _ => []) [] [] where
  base := hbase
  whole := dvd_zero _
  ring := fun k _ => ⟨nodup_singleton _, isChain_pair.mpr ⟨rfl, rfl⟩⟩
  tiling := by
    have hnil : freeBlocks (fun _ => []) = [] := by simp [freeBlocks]
    rw [hnil]
    exact tiling_nil
  order := nofun
  outOrder := nofun
  allocated := fun i => ⟨fun hne => absurd rfl hne, fun ⟨_, hb⟩ => absurd hb not_mem_nil⟩
  divides := fun i => one_dvd i

/-- One more super page. -/
theorem Inv.grow (h : s.Inv top free [] []) :
    ((s.setOrder top maxOrder).listAdd top maxOrder).Inv (top + 2 ^ maxOrder)
      (update free maxOrder (top :: free maxOrder)) [] [] := by
  have hfree : ∀ j, j ≤ maxOrder → top ∉ free j := fun j hj hm =>
    absurd ((h.tiling.cover top).mpr ⟨(top, j), mem_freeBlocks.mpr ⟨hj, hm⟩, covers_start _⟩)
      (lt_irrefl top)
  have hset := h.setOrder hfree nofun h.whole
  have hcur : (s.setOrder top maxOrder).Inv (top + 2 ^ maxOrder) free [] [(top, maxOrder)] :=
    { hset with
      whole := (Nat.dvd_add_right h.whole).mpr (dvd_refl _)
      tiling := h.tiling.grow h.whole }
  exact hcur.give (le_refl _) (update_self ..)

theorem addBlocks_done {addr : ℕ} (n : ℕ) (s : Buddy) (h : ¬ addr < memEnd) :
    addBlocks memStart memEnd n s addr = s := by
  cases n with
  | zero => rfl
  | succ n => rw [addBlocks, if_neg h]

/-- Only super pages are free: the first `n`, the last one at the front of the list. -/
def OnlySuperPages (free : ℕ → List ℕ) (n : ℕ) : Prop :=
  free maxOrder = ((range n).map (2 ^ maxOrder * ·)).reverse ∧ ∀ k, k ≠ maxOrder → free k = []

theorem OnlySuperPages.length {free : ℕ → List ℕ} {n : ℕ} (h : OnlySuperPages free n) :
    (free maxOrder).length = n := by
  rw [h.1, length_reverse, length_map, length_range]

/-- **The loop of `pmm_init`**, with `j` super pages on the list. -/
theorem Inv.addBlocks (hend : memEnd ≤ 0xFFC00000 + memStart % superPageSize) (n : ℕ) :
    ∀ {s : Buddy} {free : ℕ → List ℕ} {j : ℕ}, s.Inv (2 ^ maxOrder * j) free [] [] →
      OnlySuperPages free j → memStart + superPageSize * j ≤ memEnd →
      memEnd ≤ memStart + superPageSize * (j + n) →
      ∃ free', (addBlocks memStart memEnd n s (memStart + superPageSize * j)).Inv
        (2 ^ maxOrder * ((memEnd - memStart) / superPageSize)) free' [] [] ∧
        OnlySuperPages free' ((memEnd - memStart) / superPageSize) := by
  rw [superPageSize_eq] at hend
  have hnowrap : ∀ j, memStart + 0x400000 * j < memEnd →
      (memStart + 0x400000 * j + 0x400000) % 2 ^ 32 = memStart + 0x400000 * j + 0x400000 :=
    fun j hj => Nat.mod_eq_of_lt (by omega)
  have hpow : 2 ^ maxOrder = 1024 := by decide
  rw [superPageSize_eq, hpow]
  induction n with
  | zero =>
    intro s free j h honly hle hbound
    rw [show (memEnd - memStart) / 0x400000 = j by omega]
    exact ⟨_, h, honly⟩
  | succ n ih =>
    intro s free j h honly hle hbound
    by_cases hlt : memStart + 0x400000 * j < memEnd
    swap
    · rw [addBlocks_done _ _ hlt, show (memEnd - memStart) / 0x400000 = j by omega]
      exact ⟨_, h, honly⟩
    rw [Buddy.addBlocks, if_pos hlt, superPageSize_eq, hnowrap _ hlt]
    dsimp only
    by_cases hwhole : memStart + 0x400000 * j + 0x400000 ≤ memEnd
    · have hindex : (memStart + 0x400000 * j + 2 ^ 32 - memStart) % 2 ^ 32 / 4096 = 1024 * j := by
        omega
      rw [if_pos hwhole, pageSize_eq, hindex,
        show memStart + 0x400000 * j + 0x400000 = memStart + 0x400000 * (j + 1) by omega]
      have hnext : memStart + 0x400000 * (j + 1) ≤ memEnd := by
        rwa [Nat.mul_succ, ← Nat.add_assoc]
      have hroom : memEnd ≤ memStart + 0x400000 * (j + 1 + n) := by
        rwa [Nat.add_right_comm, Nat.add_assoc]
      have hgrow := h.grow
      rw [hpow, show 1024 * j + 1024 = 1024 * (j + 1) by rw [Nat.mul_succ]] at hgrow
      refine ih hgrow ⟨?_, fun k hk => ?_⟩ hnext hroom
      · rw [update_self, honly.1, range_succ, map_append, reverse_append, hpow]
        rfl
      · rw [update_of_ne hk]
        exact honly.2 k hk
    · -- a last part that is no whole super page
      rw [if_neg hwhole, addBlocks_done _ _ (by omega),
        show (memEnd - memStart) / 0x400000 = j by omega]
      exact ⟨_, h, honly⟩

/-- **`pmm_init`** puts the whole super pages on the list of the largest order. -/
theorem inv_pmmInit (hbase : 0 < memStart) (hle : memStart ≤ memEnd)
    (hend : memEnd ≤ 0xFFC00000 + memStart % superPageSize) :
    ∃ free, (pmmInit memStart memEnd).Inv
      (2 ^ maxOrder * ((memEnd - memStart) / superPageSize)) free [] [] ∧
      OnlySuperPages free ((memEnd - memStart) / superPageSize) := by
  have hroom : memEnd ≤ memStart + superPageSize * (0 + 1024) := by
    rw [superPageSize_eq] at hend ⊢
    omega
  have hempty : Inv ⟨memStart, (memEnd - memStart) / pageSize, fun _ => 0, fun _ => 0, ⟨id, id⟩⟩
      (2 ^ maxOrder * 0) (fun _ => []) [] [] := by
    rw [Nat.mul_zero]
    exact inv_empty hbase
  have hloop := @Inv.addBlocks memStart memEnd hend 1024 _ _ 0 hempty ⟨rfl, fun _ _ => rfl⟩
    hle hroom
  rw [Nat.mul_zero, Nat.add_zero] at hloop
  exact hloop

end Buddy

/-! ### Runs -/

/-- The allocator, and the blocks that `alloc_pages` returned and that were not freed
since. -/
structure BuddyRun where
  pmm : Buddy
  out : List DyadicBlocks.Block

namespace BuddyRun

open Buddy

def init (memStart memEnd : ℕ) : BuddyRun := ⟨pmmInit memStart memEnd, []⟩

/-- A call of `alloc_pages`, or of `free_pages` for a block that was handed out, with
its order. -/
inductive Step : BuddyRun → BuddyRun → Prop
  | alloc (σ : BuddyRun) (order flags : ℕ) :
      Step σ ⟨(σ.pmm.allocPages order flags).2,
        match (σ.pmm.allocPages order flags).1 with
        | some page => (page, order) :: σ.out
        | none => σ.out⟩
  | free (σ : BuddyRun) (page order : ℕ) (hout : (page, order) ∈ σ.out) :
      Step σ ⟨σ.pmm.freePages (some page) order, σ.out.erase (page, order)⟩

variable {σ σ' : BuddyRun} {top memStart memEnd : ℕ}

theorem inv_step (h : ∃ free, σ.pmm.Inv top free σ.out []) (hstep : Step σ σ') :
    ∃ free, σ'.pmm.Inv top free σ'.out [] := by
  obtain ⟨free, h⟩ := h
  cases hstep with
  | alloc order flags =>
    rcases h.allocPages order flags with ⟨hr, hinv⟩ | ⟨page, hr, hinv⟩
    · rw [hr]
      exact hinv
    · rw [hr]
      exact hinv
  | free page order hout => exact h.freePages hout

theorem inv_of_run (hbase : 0 < memStart) (hle : memStart ≤ memEnd)
    (hend : memEnd ≤ 0xFFC00000 + memStart % superPageSize)
    (hrun : ReflTransGen Step (init memStart memEnd) σ) :
    ∃ free, σ.pmm.Inv (2 ^ maxOrder * ((memEnd - memStart) / superPageSize)) free σ.out [] := by
  induction hrun with
  | refl =>
    obtain ⟨free, h, _⟩ := inv_pmmInit hbase hle hend
    exact ⟨free, h⟩
  | tail _ hstep ih => exact inv_step ih hstep

/-- Free blocks and outstanding blocks partition the super pages at `whole`. -/
structure Partitioned (whole : List ℕ) (σ : BuddyRun) (free : ℕ → List ℕ) : Prop where
  lists : ∀ k, k ≤ maxOrder → IsRing σ.pmm.links (.head k) ((free k).map .page)
  apart : (σ.out ++ freeBlocks free).Pairwise Apart
  aligned : ∀ b ∈ σ.out ++ freeBlocks free, 2 ^ b.2 ∣ b.1
  cover : ∀ x, (∃ b ∈ σ.out ++ freeBlocks free, Covers b x) ↔ ∃ i ∈ whole, Covers (i, maxOrder) x
  fields : ∀ k, k ≤ maxOrder → ∀ i ∈ free k, σ.pmm.order i = k ∧ σ.pmm.allocated i = 0

/-- The super pages on the list after `pmm_init`. -/
theorem supers_pmmInit (hbase : 0 < memStart) (hle : memStart ≤ memEnd)
    (hend : memEnd ≤ 0xFFC00000 + memStart % superPageSize) :
    ∃ whole : List ℕ, IsRing (pmmInit memStart memEnd).links (.head maxOrder) (whole.map .page) ∧
      whole.length = (memEnd - memStart) / superPageSize ∧
      ∀ x, x < 2 ^ maxOrder * ((memEnd - memStart) / superPageSize) ↔
        ∃ i ∈ whole, Covers (i, maxOrder) x := by
  obtain ⟨free0, h0, hsupers⟩ := inv_pmmInit hbase hle hend
  refine ⟨free0 maxOrder, h0.ring maxOrder (le_refl _), hsupers.length, fun x => ?_⟩
  rw [h0.tiling.cover x]
  constructor
  · rintro ⟨⟨i, k⟩, hb, hx⟩
    obtain ⟨-, hi⟩ := mem_freeBlocks.mp hb
    by_cases hk : k = maxOrder
    · exact ⟨i, by rw [← hk]; exact hi, by rw [← hk]; exact hx⟩
    · dsimp only at hi
      rw [hsupers.2 k hk] at hi
      exact absurd hi not_mem_nil
  · rintro ⟨i, hi, hx⟩
    exact ⟨(i, maxOrder), mem_freeBlocks.mpr ⟨le_refl _, hi⟩, hx⟩

theorem partitioned_of_inv {whole : List ℕ} {free : ℕ → List ℕ} (h : σ.pmm.Inv top free σ.out [])
    (hwhole : ∀ x, x < top ↔ ∃ i ∈ whole, Covers (i, maxOrder) x) : Partitioned whole σ free where
  lists := h.ring
  apart := h.tiling.apart
  aligned := h.tiling.aligned
  cover := fun x => by
    rw [← hwhole x]
    exact (h.tiling.cover x).symm
  fields := fun k hk i hi => ⟨h.order k hk i hi, h.allocated_free hk hi⟩

/-- **The buddy allocator keeps a partition.**  In every run from `pmm_init` on, the
blocks on the free lists and the outstanding blocks are aligned, pairwise disjoint and
cover the super pages that `pmm_init` put on its list; and `alloc_pages` never returns a
page of an outstanding block. -/
theorem buddy_partition (hbase : 0 < memStart) (hle : memStart ≤ memEnd)
    (hend : memEnd ≤ 0xFFC00000) :
    ∃ whole : List ℕ, IsRing (pmmInit memStart memEnd).links (.head maxOrder) (whole.map .page) ∧
      whole.length = (memEnd - memStart) / superPageSize ∧
      ∀ σ, ReflTransGen Step (init memStart memEnd) σ →
        (∃ free, Partitioned whole σ free) ∧
        ∀ order flags page, (σ.pmm.allocPages order flags).1 = some page →
          ∀ b ∈ σ.out, ¬ Covers b page := by
  have hend' := Nat.le_add_right_of_le (k := memStart % superPageSize) hend
  obtain ⟨whole, hring, hlength, hwhole⟩ := supers_pmmInit hbase hle hend'
  refine ⟨whole, hring, hlength, fun σ hrun => ?_⟩
  obtain ⟨free, h⟩ := inv_of_run hbase hle hend' hrun
  refine ⟨⟨free, partitioned_of_inv h hwhole⟩, ?_⟩
  intro order flags page hpage b hb hcov
  rcases h.allocPages order flags with ⟨hr, _⟩ | ⟨p, hr, free', hinv⟩
  · rw [hr] at hpage
    cases hpage
  · rw [hr] at hpage
    obtain rfl := Option.some.inj hpage
    -- the new block is disjoint from the others
    have hapart := (pairwise_cons.mp (pairwise_append.mp hinv.tiling.apart).1).1 b hb
    exact hapart p (covers_start (p, order)) hcov

/-- Two super pages, and one page handed out. -/
theorem buddy_partition_onePage :
    ∃ whole : List ℕ, whole.length = 2 ∧ ∃ σ, ReflTransGen Step (init 0x1000000 0x1800000) σ ∧
      σ.out = [(1024, 0)] ∧ ∃ free, Partitioned whole σ free := by
  obtain ⟨whole, -, hlength, h⟩ := buddy_partition (by decide : 0 < 0x1000000)
    (by decide : 0x1000000 ≤ 0x1800000) (by decide)
  have hrun := ReflTransGen.single (Step.alloc (init 0x1000000 0x1800000) 0 0)
  refine ⟨whole, hlength, _, hrun, ?_, (h _ hrun).1⟩
  have hpage : ((init 0x1000000 0x1800000).pmm.allocPages 0 0).1 = some 1024 := by decide +kernel
  rw [hpage]
  rfl

/-- An empty list has no page. -/
theorem Partitioned.free_eq_nil {whole : List ℕ} {free : ℕ → List ℕ} (h : Partitioned whole σ free)
    {k : ℕ} (hk : k ≤ maxOrder) (hempty : σ.pmm.listEmpty k) : free k = [] := by
  cases hf : free k with
  | nil => rfl
  | cons p l =>
    have hc := (h.lists k hk).chain
    rw [hf, map_cons, cons_append, isChain_cons_cons] at hc
    exact absurd (hc.1.1.symm.trans hempty) (by simp)

/-- With `mem_start = 0` the first page is the null pointer: `alloc_pages` marks it
allocated but reports a failure, and the super page is on no list any more. -/
theorem buddy_null_page :
    ∃ σ, ReflTransGen Step (init 0 0x400000) σ ∧
      ∀ whole : List ℕ, IsRing (pmmInit 0 0x400000).links (.head maxOrder) (whole.map .page) →
        ¬ ∃ free, Partitioned whole σ free := by
  refine ⟨_, .single (.alloc _ 10 0), fun whole hwhole ⟨free, h⟩ => ?_⟩
  have hfirst : (pmmInit 0 0x400000).links.next (.head maxOrder) = .page 0 := by decide +kernel
  have hnull : ((init 0 0x400000).pmm.allocPages 10 0).1 = none := by decide +kernel
  have hempty : ∀ k, k < 11 → ((init 0 0x400000).pmm.allocPages 10 0).2.listEmpty k := by
    decide +kernel
  have hmem : 0 ∈ whole := by
    have hnext := hwhole.next_mem
    rw [hfirst] at hnext
    simpa using hnext
  rw [hnull] at h
  obtain ⟨b, hb, -⟩ := (h.cover 0).mpr ⟨0, hmem, covers_start (0, maxOrder)⟩
  obtain ⟨hk, hfree⟩ := mem_freeBlocks.mp hb
  rw [h.free_eq_nil hk (hempty b.2 (Nat.lt_succ_of_le hk))] at hfree
  exact absurd hfree not_mem_nil

end BuddyRun

end Mcertikos
