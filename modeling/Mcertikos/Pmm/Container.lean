/-
Resource containers (`MContainer`).

A container holds a page quota, the part of it in use, its parent and the
number of its children; container `id` is the parent of the containers
`id * MAX_CHILDREN + 1, …, id * MAX_CHILDREN + MAX_CHILDREN`.  The operations
are those of the source, on 32-bit words:

* `containerInit` — the boot state, whose root quota counts the free pages;
* `containerSplit`, `containerAlloc`, `containerFree` — the operations;
* `containerAlloc_cases` — everything `container_alloc` can do.
-/
import Mcertikos.Pmm.AllocTable

namespace Mcertikos

open AllocTable

/-- `NUM_IDS` of `lib/x86.h`. -/
def numIds : ℕ := 64

/-- `NUM_IDS` as `TSyscall.c` defines it. -/
def syscallNumIds : ℕ := 256

/-- `MAX_CHILDREN` of `lib/x86.h`. -/
def maxChildren : ℕ := 3

/-- `struct SContainer`.  The `int` fields are kept as 32-bit words. -/
structure SContainer where
  quota : ℕ
  usage : ℕ
  parent : ℕ
  nchildren : ℕ
  used : ℕ
  deriving DecidableEq, Repr

/-- The static data of the physical memory layers.  `CONTAINER` has `NUM_IDS`
entries; at larger indices the function stands for the memory behind the
array. -/
structure Pmm where
  tbl : AllocTable
  CONTAINER : ℕ → SContainer

namespace Pmm

def setContainer (s : Pmm) (id : ℕ) (c : SContainer) : Pmm :=
  { s with CONTAINER := Function.update s.CONTAINER id c }

/-- The counting loop of `container_init`, over the pages from `1` on. -/
def realQuota (t : AllocTable) : ℕ :=
  Nat.count (fun i => 1 ≤ i ∧ t.atIsNorm i = true ∧ t.atIsAllocated i = false) t.nps

/-- `container_init`: the array is zero-initialised static data, entry `0` is
filled in. -/
def containerInit (mm : List MmRow) (beyond : ℕ → SContainer) : Pmm where
  tbl := pmemInit mm
  CONTAINER := fun id =>
    if id = 0 then ⟨realQuota (pmemInit mm), 0, 0, 0, 1⟩
    else if id < numIds then ⟨0, 0, 0, 0, 0⟩
    else beyond id

def containerGetNchildren (s : Pmm) (id : ℕ) : ℕ := (s.CONTAINER id).nchildren

/-- `container_can_consume`: the sum and the comparison are unsigned. -/
def containerCanConsume (s : Pmm) (id n : ℕ) : Bool :=
  if ((s.CONTAINER id).usage + n) % 2 ^ 32 > (s.CONTAINER id).quota then false else true

/-- The container index `container_split` gives to the next child of `id`. -/
def childIndex (s : Pmm) (id : ℕ) : ℕ := id * maxChildren + 1 + (s.CONTAINER id).nchildren

def containerSplit (s : Pmm) (id quota : ℕ) : ℕ × Pmm :=
  let nc := (s.CONTAINER id).nchildren
  let child := s.childIndex id
  let s₁ := s.setContainer child ⟨quota, 0, id, 0, 1⟩
  let c := s₁.CONTAINER id
  let s₂ := s₁.setContainer id
    { c with usage := (c.usage + quota) % 2 ^ 32, nchildren := (nc + 1) % 2 ^ 32 }
  (child, s₂)

def containerAlloc (s : Pmm) (id : ℕ) : ℕ × Pmm :=
  let c := s.CONTAINER id
  if c.usage = c.quota then (0, s)
  else
    let s₁ := s.setContainer id { c with usage := (c.usage + 1) % 2 ^ 32 }
    let (i, t) := s₁.tbl.palloc
    (i, { s₁ with tbl := t })

/-- `container_free`: `usage > 0` is a signed comparison. -/
def containerFree (s : Pmm) (id page : ℕ) : Pmm :=
  if s.tbl.atIsAllocated page = true then
    let s₁ := { s with tbl := s.tbl.pfree page }
    let c := s₁.CONTAINER id
    if 0 < c.usage ∧ c.usage < 2 ^ 31 then s₁.setContainer id { c with usage := c.usage - 1 }
    else s₁
  else s

/-! ### Field lemmas -/

@[simp] theorem setContainer_tbl (s : Pmm) (id : ℕ) (c : SContainer) :
    (s.setContainer id c).tbl = s.tbl := rfl

@[simp] theorem setContainer_same (s : Pmm) (id : ℕ) (c : SContainer) :
    (s.setContainer id c).CONTAINER id = c := by simp [setContainer]

theorem setContainer_other (s : Pmm) {id j : ℕ} (c : SContainer) (h : j ≠ id) :
    (s.setContainer id c).CONTAINER j = s.CONTAINER j := by simp [setContainer, h]

theorem realQuota_le (mm : List MmRow) : realQuota (pmemInit mm) ≤ 2 ^ 20 :=
  le_trans (Nat.count_le _) (npsOf_le mm)

theorem childIndex_ne (s : Pmm) (id : ℕ) : s.childIndex id ≠ id := by
  unfold childIndex maxChildren
  omega

/-! ### What the operations do -/

/-- Both records `container_split` writes. -/
theorem containerSplit_eq (s : Pmm) (id quota : ℕ) : s.containerSplit id quota = (s.childIndex id,
        (s.setContainer (s.childIndex id) ⟨quota, 0, id, 0, 1⟩).setContainer id
          { s.CONTAINER id with
            usage := ((s.CONTAINER id).usage + quota) % 2 ^ 32
            nchildren := ((s.CONTAINER id).nchildren + 1) % 2 ^ 32 }) := by
  have hc : (s.setContainer (s.childIndex id) ⟨quota, 0, id, 0, 1⟩).CONTAINER id
      = s.CONTAINER id :=
    setContainer_other s _ (childIndex_ne s id).symm
  simp only [containerSplit, hc]

/-- Everything `container_alloc` can do: refuse at the quota, charge the
container without finding a page, or charge it and hand out a free page. -/
theorem containerAlloc_cases (s : Pmm) (id : ℕ) :
    ((s.CONTAINER id).usage = (s.CONTAINER id).quota ∧ s.containerAlloc id = (0, s)) ∨
    ((s.CONTAINER id).usage ≠ (s.CONTAINER id).quota ∧
      ∃ c, c = { s.CONTAINER id with usage := ((s.CONTAINER id).usage + 1) % 2 ^ 32 } ∧
      (((∀ j, s.tbl.lastPallocIndex < j → j < s.tbl.nps → s.tbl.isFree j = false) ∧
        s.containerAlloc id
          = (0, { s.setContainer id c with tbl := { s.tbl with lastPallocIndex := 0 } })) ∨
      (∃ p, s.tbl.lastPallocIndex < p ∧ p < s.tbl.nps ∧ s.tbl.isFree p = true ∧
        (∀ j, s.tbl.lastPallocIndex < j → j < p → s.tbl.isFree j = false) ∧
        s.containerAlloc id
          = (p, { s.setContainer id c with
                  tbl := { s.tbl.atSetAllocated p 1 with lastPallocIndex := p } })))) := by
  by_cases hq : (s.CONTAINER id).usage = (s.CONTAINER id).quota
  · exact .inl ⟨hq, by simp [containerAlloc, hq]⟩
  · refine .inr ⟨hq, _, rfl, ?_⟩
    rcases palloc_cases s.tbl with ⟨hno, he⟩ | ⟨p, hlo, hlt, hfr, hfirst, he⟩
    · refine .inl ⟨hno, ?_⟩
      simp only [containerAlloc, if_neg hq, setContainer_tbl, he]
    · refine .inr ⟨p, hlo, hlt, hfr, hfirst, ?_⟩
      simp only [containerAlloc, if_neg hq, setContainer_tbl, he]

end Pmm

end Mcertikos
