/-
Heaps of processes (`sys_brk` of `TSyscall.c`).

`sys_brk` maps the pages between the old and the new break to consecutive frames of one
block of the buddy allocator, and on the way down unmaps them and frees their frames one
by one with order `0`.

* `mapPages_apply` — the translation after the mapping loop;
* `Heaps.Inv.grow`, `Heaps.Inv.shrink` — what a call does to the heaps;
* `Heaps.heap_own_frames` — every heap page stays translated to a frame of an unfreed
  block of its own process, in every run whose growths fit into their block and whose
  shrinks free no block of more than one page.

Design notes: the page table of a process is a function from virtual pages to frames,
empty at first; `map_page` always succeeds, and `map_super_page` fails on ranges that are
not aligned.  The state also keeps the blocks that `alloc_pages` returned, with their
process, until `free_pages` takes them back.
-/
import Mcertikos.Pmm.Buddy
import Mcertikos.Vmm.PageTable

namespace Mcertikos

open List Relation Function DyadicBlocks Buddy

/-! ### Translation -/

/-- The translation of a heap: virtual page to frame. -/
abbrev HeapMap := ℕ → Option ℕ

/-- `map_page`. -/
def HeapMap.mapPage (pgd : HeapMap) (va phys : ℕ) : HeapMap :=
  update pgd (va / pageSize) (some (phys / pageSize))

/-- `unmap_page`. -/
def HeapMap.unmapPage (pgd : HeapMap) (va : ℕ) : HeapMap :=
  update pgd (va / pageSize) none

/-- `lookup_phys_addr`, `0` if there is no translation. -/
def HeapMap.lookupPhysAddr (pgd : HeapMap) (va : ℕ) : ℕ :=
  match pgd (va / pageSize) with
  | some f => f * pageSize
  | none => 0

/-- `map_super_page`, for aligned addresses. -/
def HeapMap.mapSuperPage (pgd : HeapMap) (va phys : ℕ) : Option HeapMap :=
  if va % superPageSize ≠ 0 ∨ phys % superPageSize ≠ 0 then none
  else some fun v =>
    if va / pageSize ≤ v ∧ v < va / pageSize + 2 ^ maxOrder then
      some (phys / pageSize + (v - va / pageSize))
    else pgd v

/-- The mapping loop of `sys_brk`; `n` bounds the rounds. -/
def mapPages (addr : ℕ) : ℕ → HeapMap → ℕ → ℕ → HeapMap
  | 0, pgd, _, _ => pgd
  | n + 1, pgd, va, phys =>
    if va < addr then
      mapPages addr n (pgd.mapPage va phys) ((va + pageSize) % 2 ^ 32) ((phys + pageSize) % 2 ^ 32)
    else pgd

/-! ### The state -/

/-- The fields of `struct proc` that `sys_brk` uses. -/
structure HeapProc where
  brk : ℕ
  heapStart : ℕ
  superpageEnabled : Bool
  contiguousEnabled : Bool
  pgd : HeapMap

/-- The allocator, the processes, and the blocks handed out. -/
structure Heaps where
  pmm : Buddy
  proc : ℕ → HeapProc
  out : List (DyadicBlocks.Block × ℕ)

/-- `errno` of `sys_brk`. -/
inductive BrkErrno where
  | succ
  | invalAddr
  | nomem
  deriving DecidableEq, Repr

namespace Heaps

/-- After `pmm_init` and `proc_create`. -/
def init (memStart memEnd : ℕ) : Heaps where
  pmm := pmmInit memStart memEnd
  proc := fun _ => ⟨vmUserLo, vmUserLo, false, false, fun _ => none⟩
  out := []

def setProc (σ : Heaps) (pid : ℕ) (p : HeapProc) : Heaps :=
  { σ with proc := update σ.proc pid p }

theorem setProc_self (σ : Heaps) (pid : ℕ) (p : HeapProc) : (σ.setProc pid p).proc pid = p :=
  update_self ..

theorem setProc_other (σ : Heaps) {pid pid' : ℕ} (p : HeapProc) (h : pid' ≠ pid) :
    (σ.setProc pid p).proc pid' = σ.proc pid' :=
  update_of_ne h _ _

/-- `alloc_pages` on behalf of `pid`. -/
def allocPages (σ : Heaps) (pid order flags : ℕ) : Option ℕ × Heaps :=
  ((σ.pmm.allocPages order flags).1,
    { σ with
      pmm := (σ.pmm.allocPages order flags).2
      out := match (σ.pmm.allocPages order flags).1 with
        | some page => ((page, order), pid) :: σ.out
        | none => σ.out })

/-- `free_pages`: the block at an allocated page is handed back. -/
def freePages (σ : Heaps) (page : Option ℕ) (order : ℕ) : Heaps :=
  { σ with
    pmm := σ.pmm.freePages page order
    out := σ.out.filter fun x => page ≠ some x.1.1 ∨ σ.pmm.allocated x.1.1 = 0 ∨ maxOrder < order }

/-! ### `sys_brk` -/

/-- Number of pages from `brk` up to `addr`. -/
def pagesNeeded (brk addr : ℕ) : ℕ := (addr - brk + pageSize - 1) / pageSize

/-- The order `sys_brk` asks for: `ilog2` is the floor of the logarithm. -/
def brkOrder (contiguous : Bool) (pages : ℕ) : ℕ :=
  if contiguous = true ∧ 1 < pages then
    if 2 ^ Nat.log2 pages < pages then Nat.log2 pages + 1 else Nat.log2 pages
  else 0

/-- A growth with a super page. -/
def growSuper (σ : Heaps) (pid addr : ℕ) : ℤ × BrkErrno × Heaps :=
  let p := σ.proc pid
  if pagesNeeded p.brk addr ≠ 1024 ∨ addr % superPageSize ≠ 0 then (-1, .invalAddr, σ)
  else
    let σ₁ := (σ.allocPages pid maxOrder 1).2
    match (σ.allocPages pid maxOrder 1).1 with
    | none => (-1, .nomem, σ₁)
    | some page =>
      match p.pgd.mapSuperPage p.brk (σ₁.pmm.pageToPhys page) with
      | none => (-1, .nomem, σ₁.freePages (some page) maxOrder)
      | some pgd => (0, .succ, σ₁.setProc pid { p with pgd := pgd, brk := addr })

/-- A growth with pages. -/
def growPages (σ : Heaps) (pid addr : ℕ) : ℤ × BrkErrno × Heaps :=
  let p := σ.proc pid
  let pages := pagesNeeded p.brk addr
  let order := brkOrder p.contiguousEnabled pages
  let σ₁ := (σ.allocPages pid order 0).2
  match (σ.allocPages pid order 0).1 with
  | none => (-1, .nomem, σ₁)
  | some page =>
    let pgd := mapPages addr pages p.pgd p.brk (σ₁.pmm.pageToPhys page)
    (0, .succ, σ₁.setProc pid { p with pgd := pgd, brk := addr })

/-- One round of the loop that shrinks the heap. -/
def unmapRound (σ : Heaps) (pid va : ℕ) : Heaps :=
  let p := σ.proc pid
  let physAddr := p.pgd.lookupPhysAddr va
  if physAddr ≠ 0 then
    (σ.setProc pid { p with pgd := p.pgd.unmapPage va }).freePages (σ.pmm.physToPage physAddr) 0
  else σ

/-- The loop that shrinks the heap; `n` bounds the rounds. -/
def unmapPages (pid oldBrk : ℕ) : ℕ → Heaps → ℕ → Heaps
  | 0, σ, _ => σ
  | n + 1, σ, va =>
    if va < oldBrk then unmapPages pid oldBrk n (σ.unmapRound pid va) ((va + pageSize) % 2 ^ 32)
    else σ

/-- `sys_brk`.  Bit `0` of `flags` is `BRK_CONTIGUOUS`, bit `1` is `BRK_SUPERPAGE`. -/
def sysBrk (σ : Heaps) (pid addr flags : ℕ) : ℤ × BrkErrno × Heaps :=
  let p := σ.proc pid
  if addr < p.heapStart ∨ vmUserHi < addr then (-1, .invalAddr, σ)
  else
    let σ₁ := σ.setProc pid
      { p with
        superpageEnabled := decide (flags / 2 % 2 = 1)
        contiguousEnabled := decide (flags % 2 = 1) }
    if p.brk < addr then
      if flags / 2 % 2 = 1 then σ₁.growSuper pid addr else σ₁.growPages pid addr
    else if addr < p.brk then
      let σ₂ := unmapPages pid p.brk (pagesNeeded addr p.brk) σ₁ addr
      (0, .succ, σ₂.setProc pid { σ₂.proc pid with brk := addr })
    else (0, .succ, σ₁)

/-! ### The property -/

/-- Every heap page is translated to a frame of an unfreed block of its process, and no
frame to pages of two processes. -/
def OwnFrames (σ : Heaps) : Prop :=
  (∀ pid v f, (σ.proc pid).pgd v = some f →
    ∃ b i, (b, pid) ∈ σ.out ∧ Covers b i ∧ f = σ.pmm.pageToPhys i / pageSize) ∧
  ∀ pid pid' v v' f, pid ≠ pid' → (σ.proc pid).pgd v = some f → (σ.proc pid').pgd v' ≠ some f

/-- The growth fits into its block: a super page, a contiguous block, or one page. -/
def FitsBlock (σ : Heaps) (pid addr flags : ℕ) : Prop :=
  (σ.proc pid).brk < addr → flags / 2 % 2 = 0 →
    flags % 2 = 1 ∨ pagesNeeded (σ.proc pid).brk addr ≤ 1

/-- The shrink unmaps the first page of no block of more than one page. -/
def SparesBlocks (σ : Heaps) (pid addr : ℕ) : Prop :=
  ∀ j, addr + pageSize * j < (σ.proc pid).brk → ∀ i k, ((i, k), pid) ∈ σ.out →
    (σ.proc pid).pgd ((addr + pageSize * j) / pageSize) = some (σ.pmm.pageToPhys i / pageSize) →
    k = 0

/-- A call of `sys_brk` that meets the two conditions. -/
inductive Step : Heaps → Heaps → Prop
  | brk (σ : Heaps) (pid addr flags : ℕ) (hfits : σ.FitsBlock pid addr flags)
      (hspares : σ.SparesBlocks pid addr) : Step σ (σ.sysBrk pid addr flags).2.2

/-- Any call of `sys_brk`. -/
inductive AnyStep : Heaps → Heaps → Prop
  | brk (σ : Heaps) (pid addr flags : ℕ) : AnyStep σ (σ.sysBrk pid addr flags).2.2

/-! ### The loops over pages -/

/-- **The translation after the mapping loop**: consecutive pages to consecutive frames. -/
theorem mapPages_apply {addr : ℕ} (haddr : addr ≤ vmUserHi) (n : ℕ) :
    ∀ {pgd : HeapMap} {va phys : ℕ}, pagesNeeded va addr = n → phys + pageSize * n < 2 ^ 32 →
      ∀ v, mapPages addr n pgd va phys v = if va / pageSize ≤ v ∧ v < va / pageSize + n then
          some (phys / pageSize + (v - va / pageSize))
        else pgd v := by
  unfold vmUserHi at haddr
  unfold pagesNeeded
  rw [pageSize_eq]
  induction n with
  | zero =>
    intro pgd va phys _ _ v
    rw [mapPages, if_neg (by omega)]
  | succ n ih =>
    intro pgd va phys hn hphys v
    rw [Nat.mul_succ] at hphys
    have hlt : va < addr := by omega
    have hva : (va + 4096) % 2 ^ 32 = va + 4096 := Nat.mod_eq_of_lt <|
      lt_of_le_of_lt (Nat.add_le_add_right (hlt.le.trans haddr) 4096) (by norm_num)
    have hph : (phys + 4096) % 2 ^ 32 = phys + 4096 := Nat.mod_eq_of_lt <|
      lt_of_le_of_lt (Nat.add_le_add_left (Nat.le_add_left _ _) phys) hphys
    rw [Nat.add_comm (4096 * n), ← Nat.add_assoc] at hphys
    rw [mapPages, if_pos hlt, pageSize_eq, hva, hph, ih (by clear hphys; omega) hphys]
    clear hphys
    unfold HeapMap.mapPage
    rw [pageSize_eq, update_apply]
    by_cases hv : v = va / 4096
    · rw [if_neg (by omega), if_pos hv, if_pos (by omega), hv, Nat.sub_self, Nat.add_zero]
    · by_cases hin : va / 4096 ≤ v ∧ v < va / 4096 + (n + 1)
      · rw [if_pos (by omega), if_pos hin]
        exact congrArg some (by omega)
      · rw [if_neg (by omega), if_neg hv, if_neg hin]

theorem pagesNeeded_le_order {contiguous : Bool} {pages : ℕ}
    (h : contiguous = true ∨ pages ≤ 1) : pages ≤ 2 ^ brkOrder contiguous pages := by
  unfold brkOrder
  by_cases hc : contiguous = true ∧ 1 < pages
  · rw [if_pos hc]
    have hlt : pages < 2 ^ (Nat.log2 pages + 1) := Nat.lt_log2_self
    split
    · omega
    · omega
  · rw [if_neg hc]
    have hle : pages ≤ 1 := by
      rcases h with h | h
      · by_contra hgt
        exact hc ⟨h, by omega⟩
      · exact h
    simpa using hle

/-! ### The invariant -/

variable {memStart memEnd : ℕ}

/-- The memory given to `pmm_init`. -/
structure Arena (memStart memEnd : ℕ) : Prop where
  pos : 0 < memStart
  aligned : memStart % pageSize = 0
  le : memStart ≤ memEnd
  high : memEnd ≤ 0xFFC00000

/-- The number of pages in whole super pages. -/
def arenaTop (memStart memEnd : ℕ) : ℕ := 2 ^ maxOrder * ((memEnd - memStart) / superPageSize)

/-- The invariant: the allocator's own, every translated frame is in a block of its
process, and no two pages have the same frame. -/
structure Inv (memStart memEnd : ℕ) (σ : Heaps) (free : ℕ → List ℕ) : Prop where
  memBase : σ.pmm.memBase = memStart
  numPages : σ.pmm.numPages = (memEnd - memStart) / pageSize
  buddy : σ.pmm.Inv (arenaTop memStart memEnd) free (σ.out.map Prod.fst) []
  brk : ∀ pid, (σ.proc pid).brk ≤ vmUserHi
  mapped : ∀ pid v f, (σ.proc pid).pgd v = some f →
    ∃ b i, (b, pid) ∈ σ.out ∧ Covers b i ∧ f = memStart / pageSize + i
  inj : ∀ pid v pid' v' f, (σ.proc pid).pgd v = some f → (σ.proc pid').pgd v' = some f →
    pid = pid' ∧ v = v'

/-- No page is translated to a frame of the block. -/
def Unmapped (memStart : ℕ) (σ : Heaps) (b : DyadicBlocks.Block) : Prop :=
  ∀ pid v i, Covers b i → (σ.proc pid).pgd v ≠ some (memStart / pageSize + i)

variable {σ : Heaps} {free : ℕ → List ℕ} {pid addr : ℕ}

variable {i order page : ℕ} {p : HeapProc}

/-- The pages of an outstanding block lie in the arena. -/
theorem Inv.lt_numPages (h : Inv memStart memEnd σ free) {b : DyadicBlocks.Block}
    (hb : (b, pid) ∈ σ.out) (hi : Covers b i) : i < (memEnd - memStart) / pageSize := by
  have hlt : i < arenaTop memStart memEnd :=
    (h.buddy.tiling.cover i).mpr ⟨b, mem_append_left _ (mem_map_of_mem hb), hi⟩
  have htop : arenaTop memStart memEnd = 1024 * ((memEnd - memStart) / 4194304) := rfl
  rw [htop] at hlt
  rw [pageSize_eq]
  omega

theorem Arena.pageToPhys (ha : Arena memStart memEnd) (hbase : σ.pmm.memBase = memStart)
    (hi : i < (memEnd - memStart) / pageSize) :
    σ.pmm.pageToPhys i = memStart + i * pageSize ∧
      σ.pmm.pageToPhys i / pageSize = memStart / pageSize + i := by
  obtain ⟨hpos, hal, hle, hhigh⟩ := ha
  unfold Buddy.pageToPhys
  rw [hbase]
  rw [pageSize_eq] at hal hi ⊢
  rw [Nat.mod_eq_of_lt (by omega)]
  exact ⟨rfl, by omega⟩

theorem Arena.physToPage (ha : Arena memStart memEnd) (h : Inv memStart memEnd σ free)
    (hi : i < (memEnd - memStart) / pageSize) :
    σ.pmm.physToPage ((memStart / pageSize + i) * pageSize) = some i := by
  obtain ⟨hpos, hal, hle, hhigh⟩ := ha
  unfold Buddy.physToPage
  rw [h.memBase, h.numPages]
  rw [pageSize_eq] at hal hi ⊢
  rw [if_neg (by omega)]
  exact congrArg some (by omega)

theorem ownFrames_of_inv (ha : Arena memStart memEnd) (h : Inv memStart memEnd σ free) :
    σ.OwnFrames := by
  constructor
  · intro pid v f hf
    obtain ⟨b, i, hb, hi, rfl⟩ := h.mapped pid v f hf
    exact ⟨b, i, hb, hi, (ha.pageToPhys h.memBase (h.lt_numPages hb hi)).2.symm⟩
  · intro pid pid' v v' f hne hf hf'
    exact hne (h.inj pid v pid' v' f hf hf').1

theorem inv_init (ha : Arena memStart memEnd) :
    ∃ free, Inv memStart memEnd (init memStart memEnd) free := by
  obtain ⟨free, hbuddy, -⟩ := inv_pmmInit ha.pos ha.le (Nat.le_add_right_of_le ha.high)
  obtain ⟨hbase, hpages⟩ := @sameArena_addBlocks memStart memEnd 1024
    ⟨memStart, (memEnd - memStart) / pageSize, fun _ => 0, fun _ => 0, ⟨id, id⟩⟩ memStart
  exact ⟨free, hbase, hpages, hbuddy, fun _ => (by decide : vmUserLo ≤ vmUserHi), fun _ _ _ hf => (by cases hf),
    fun _ _ _ _ _ hf => (by cases hf)⟩

/-- The translations of one process change. -/
theorem Inv.setProc (h : Inv memStart memEnd σ free) (hbrk : p.brk ≤ vmUserHi)
    (hmapped : ∀ v f, p.pgd v = some f →
      ∃ b i, (b, pid) ∈ σ.out ∧ Covers b i ∧ f = memStart / pageSize + i)
    (hinj : ∀ v v' f, p.pgd v = some f → p.pgd v' = some f → v = v')
    (hother : ∀ v f pid' v', p.pgd v = some f → pid' ≠ pid → (σ.proc pid').pgd v' ≠ some f) :
    Inv memStart memEnd (σ.setProc pid p) free := by
  have hself := σ.setProc_self pid p
  have hne : ∀ {pid'}, pid' ≠ pid → (σ.setProc pid p).proc pid' = σ.proc pid' := fun hp =>
    σ.setProc_other p hp
  refine { h with
    brk := fun pid' => ?_
    mapped := fun pid' v f hf => ?_
    inj := fun pid1 v1 pid2 v2 f hf1 hf2 => ?_ }
  · by_cases hp : pid' = pid
    · rw [hp, hself]
      exact hbrk
    · rw [hne hp]
      exact h.brk pid'
  · by_cases hp : pid' = pid
    · rw [hp, hself] at hf
      rw [hp]
      exact hmapped v f hf
    · rw [hne hp] at hf
      exact h.mapped pid' v f hf
  · by_cases hp1 : pid1 = pid
    · rw [hp1, hself] at hf1
      by_cases hp2 : pid2 = pid
      · rw [hp2, hself] at hf2
        exact ⟨hp1.trans hp2.symm, hinj v1 v2 f hf1 hf2⟩
      · rw [hne hp2] at hf2
        exact absurd hf2 (hother v1 f pid2 v2 hf1 hp2)
    · rw [hne hp1] at hf1
      by_cases hp2 : pid2 = pid
      · rw [hp2, hself] at hf2
        exact absurd hf1 (hother v2 f pid1 v1 hf2 hp1)
      · rw [hne hp2] at hf2
        exact h.inj pid1 v1 pid2 v2 f hf1 hf2

/-- Fewer translations, or another break. -/
theorem Inv.setProc_sub (h : Inv memStart memEnd σ free) (hbrk : p.brk ≤ vmUserHi)
    (hsub : ∀ v f, p.pgd v = some f → (σ.proc pid).pgd v = some f) :
    Inv memStart memEnd (σ.setProc pid p) free :=
  h.setProc hbrk (fun v f hf => h.mapped pid v f (hsub v f hf))
    (fun v v' f hf hf' => (h.inj pid v pid v' f (hsub v f hf) (hsub v' f hf')).2)
    fun v f pid' v' hf hne hf' => hne (h.inj pid' v' pid v f hf' (hsub v f hf)).1

/-! ### Allocation and release -/

/-- **`alloc_pages` gives a process a block that nobody has mapped.** -/
theorem Inv.allocPages (h : Inv memStart memEnd σ free) (pid order flags : ℕ) :
    ((σ.allocPages pid order flags).1 = none ∧
      ∃ free', Inv memStart memEnd (σ.allocPages pid order flags).2 free') ∨
    ∃ page, (σ.allocPages pid order flags).1 = some page ∧
      (∃ free', Inv memStart memEnd (σ.allocPages pid order flags).2 free') ∧
      ((page, order), pid) ∈ (σ.allocPages pid order flags).2.out ∧
      Unmapped memStart (σ.allocPages pid order flags).2 (page, order) := by
  obtain ⟨hbase, hpages⟩ := sameArena_allocPages σ.pmm order flags
  rcases h.buddy.allocPages order flags with ⟨hr, free', hinv⟩ | ⟨page, hr, free', hinv⟩
  · refine .inl ⟨hr, free', ?_⟩
    unfold Heaps.allocPages
    rw [hr]
    exact { h with
      memBase := hbase.trans h.memBase
      numPages := hpages.trans h.numPages
      buddy := hinv }
  · refine .inr ⟨page, hr, ⟨free', ?_⟩, ?_, ?_⟩
    · unfold Heaps.allocPages
      rw [hr]
      exact { h with
        memBase := hbase.trans h.memBase
        numPages := hpages.trans h.numPages
        buddy := hinv
        mapped := fun pid' v f hf => by
          obtain ⟨b, i, hb, hi⟩ := h.mapped pid' v f hf
          exact ⟨b, i, mem_cons_of_mem _ hb, hi⟩ }
    · unfold Heaps.allocPages
      rw [hr]
      exact mem_cons_self ..
    · -- what is mapped lies in older blocks
      intro pid' v i hi hf
      obtain ⟨b, j, hb, hj, hij⟩ := h.mapped pid' v _ hf
      obtain rfl : i = j := Nat.add_left_cancel hij
      have hapart := (pairwise_cons.mp (pairwise_append.mp hinv.tiling.apart).1).1 b
        (mem_map_of_mem hb)
      exact hapart i hi hj

/-- `free_pages` of a block that is not mapped any more. -/
theorem Inv.freePages (h : Inv memStart memEnd σ free)
    (hb : ((page, order), pid) ∈ σ.out) (hun : Unmapped memStart σ (page, order)) :
    ∃ free', Inv memStart memEnd (σ.freePages (some page) order) free' := by
  have hmem : (page, order) ∈ σ.out.map Prod.fst := mem_map_of_mem hb
  obtain ⟨hbase, hpages⟩ := sameArena_freePages σ.pmm (some page) order
  obtain ⟨free', hinv⟩ := h.buddy.freePages hmem
  have hk := (h.buddy.outOrder _ hmem).1
  have halloc := (h.buddy.allocated page).mpr ⟨order, hmem⟩
  have hkeep : ∀ x ∈ σ.out, decide (some page ≠ some x.1.1 ∨ σ.pmm.allocated x.1.1 = 0 ∨
      maxOrder < order) = decide (x.1.1 ≠ page) := by
    intro x _
    dsimp only at hk
    by_cases hx : x.1.1 = page
    · simp [hx, halloc, Nat.not_lt.mpr hk]
    · simp [hx, Ne.symm hx]
  have hout : (σ.freePages (some page) order).out = σ.out.filter fun x => x.1.1 ≠ page :=
    filter_congr hkeep
  refine ⟨free', { h with
    memBase := hbase.trans h.memBase
    numPages := hpages.trans h.numPages
    buddy := ?_
    mapped := fun pid' v f hf => ?_ }⟩
  · rw [h.buddy.erase_eq_filter hmem, filter_map] at hinv
    rw [hout]
    exact hinv
  · obtain ⟨b, i, hbm, hi, rfl⟩ := h.mapped pid' v f hf
    refine ⟨b, i, ?_, hi, rfl⟩
    rw [hout]
    refine mem_filter.mpr ⟨hbm, ?_⟩
    have hne : b.1 ≠ page := by
      intro he
      have heq := h.buddy.tiling.eq_of_overlap (mem_append_left _ (mem_map_of_mem hbm))
        (mem_append_left _ hmem) (covers_start b) (he ▸ covers_start (page, order))
      exact hun pid' v i (heq ▸ hi) hf
    exact decide_eq_true hne

/-- `free_pages` of a page that heads no outstanding block does nothing. -/
theorem freePages_of_unallocated {k : ℕ} (h : σ.pmm.allocated i = 0) :
    σ.freePages (some i) k = σ := by
  have hpmm : σ.pmm.freePages (some i) k = σ.pmm := if_pos (.inl h)
  have hout : (σ.out.filter fun x => some i ≠ some x.1.1 ∨ σ.pmm.allocated x.1.1 = 0 ∨ maxOrder < k)
      = σ.out := by
    refine filter_eq_self.mpr fun x _ => ?_
    by_cases hx : x.1.1 = i
    · simp [hx, h]
    · simp [Ne.symm hx]
  unfold Heaps.freePages
  rw [hpmm, hout]

/-! ### Growing -/

/-- Consecutive pages of a process are mapped to the frames of its new block. -/
theorem Inv.mapBlock (h : Inv memStart memEnd σ free) {n : ℕ} (v0 : ℕ)
    (hb : ((page, order), pid) ∈ σ.out) (hun : Unmapped memStart σ (page, order))
    (hn : n ≤ 2 ^ order) (hbrk : p.brk ≤ vmUserHi)
    (hpgd : ∀ v, p.pgd v = if v0 ≤ v ∧ v < v0 + n then
      some (memStart / pageSize + page + (v - v0)) else (σ.proc pid).pgd v) :
    Inv memStart memEnd (σ.setProc pid p) free := by
  have hcov : ∀ v, v0 ≤ v ∧ v < v0 + n → Covers (page, order) (page + (v - v0)) := by
    intro v hv
    unfold Covers
    dsimp only
    omega
  -- a new page has a frame of the block, the others keep theirs
  have hcases : ∀ v f, p.pgd v = some f →
      (v0 ≤ v ∧ v < v0 + n) ∧ f = memStart / pageSize + (page + (v - v0)) ∨
        (σ.proc pid).pgd v = some f := by
    intro v f hf
    rw [hpgd v] at hf
    by_cases hv : v0 ≤ v ∧ v < v0 + n
    · rw [if_pos hv] at hf
      exact .inl ⟨hv, by rw [← Option.some.inj hf, Nat.add_assoc]⟩
    · rw [if_neg hv] at hf
      exact .inr hf
  refine h.setProc hbrk (fun v f hf => ?_) (fun v v' f hf hf' => ?_) fun v f pid' v' hf hne hf' => ?_
  · rcases hcases v f hf with ⟨hv, he⟩ | hf
    · exact ⟨_, _, hb, hcov v hv, he⟩
    · exact h.mapped pid v f hf
  · rcases hcases v f hf with ⟨hv, he⟩ | hf
    · rcases hcases v' f hf' with ⟨hv', he'⟩ | hf'
      · omega
      · exact absurd hf' (he ▸ hun pid v' _ (hcov v hv))
    · rcases hcases v' f hf' with ⟨hv', he'⟩ | hf'
      · exact absurd hf (he' ▸ hun pid v _ (hcov v' hv'))
      · exact (h.inj pid v pid v' f hf hf').2
  · rcases hcases v f hf with ⟨hv, he⟩ | hf
    · exact hun pid' v' _ (hcov v hv) (he ▸ hf')
    · exact hne (h.inj pid' v' pid v f hf' hf).1

section

variable (ha : Arena memStart memEnd) (h : Inv memStart memEnd σ free)
include ha h

/-- The frames of a block have 32-bit addresses. -/
theorem Inv.phys_room {n : ℕ} (hb : ((page, order), pid) ∈ σ.out) (hn : n ≤ 2 ^ order) :
    memStart + page * pageSize + pageSize * n < 2 ^ 32 := by
  have hpos : 0 < 2 ^ order := by positivity
  have hlast := h.lt_numPages hb (i := page + (2 ^ order - 1)) (by unfold Covers; dsimp only; omega)
  have hmul : pageSize * (page + n) ≤ pageSize * ((memEnd - memStart) / pageSize) :=
    Nat.mul_le_mul_left _ (by omega)
  have hdiv := Nat.mul_div_le (memEnd - memStart) pageSize
  rw [Nat.mul_add, Nat.mul_comm pageSize page] at hmul
  have hhigh := ha.high
  have hle := ha.le
  omega

theorem Inv.growPages (haddr : addr ≤ vmUserHi)
    (hfits : (σ.proc pid).contiguousEnabled = true ∨ pagesNeeded (σ.proc pid).brk addr ≤ 1) :
    ∃ free', Inv memStart memEnd (σ.growPages pid addr).2.2 free' := by
  have hle := pagesNeeded_le_order hfits
  unfold Heaps.growPages
  dsimp only
  rcases h.allocPages pid (brkOrder (σ.proc pid).contiguousEnabled
      (pagesNeeded (σ.proc pid).brk addr)) 0 with ⟨hr, free', hinv⟩ | ⟨page, hr, ⟨free', hinv⟩, hb, hun⟩
  · rw [hr]
    exact ⟨free', hinv⟩
  · rw [hr]
    refine ⟨free', hinv.mapBlock ((σ.proc pid).brk / pageSize) hb hun hle haddr fun v => ?_⟩
    obtain ⟨hphys, hframe⟩ := ha.pageToPhys hinv.memBase
      (hinv.lt_numPages hb (covers_start (page, _)))
    have hroom := hinv.phys_room ha hb hle
    dsimp only at hphys hframe ⊢
    rw [mapPages_apply haddr _ rfl (by rw [hphys]; exact hroom), hframe]
    rfl

theorem Inv.growSuper
    (haddr : addr ≤ vmUserHi) : ∃ free', Inv memStart memEnd (σ.growSuper pid addr).2.2 free' := by
  unfold Heaps.growSuper
  dsimp only
  split
  · exact ⟨free, h⟩
  rcases h.allocPages pid maxOrder 1 with ⟨hr, free', hinv⟩ | ⟨page, hr, ⟨free', hinv⟩, hb, hun⟩
  · rw [hr]
    exact ⟨free', hinv⟩
  · rw [hr]
    dsimp only
    unfold HeapMap.mapSuperPage
    by_cases hal : (σ.proc pid).brk % superPageSize ≠ 0 ∨
        (σ.allocPages pid maxOrder 1).2.pmm.pageToPhys page % superPageSize ≠ 0
    · rw [if_pos hal]
      exact hinv.freePages hb hun
    · rw [if_neg hal]
      have hframe := (ha.pageToPhys hinv.memBase (hinv.lt_numPages hb (covers_start (page, _)))).2
      refine ⟨free', hinv.mapBlock ((σ.proc pid).brk / pageSize) hb hun (le_refl _) haddr fun v => ?_⟩
      dsimp only at hframe ⊢
      rw [hframe]
      rfl

end

/-! ### Shrinking -/

/-- What the loop needs of the state: the pages still to come head no larger block. -/
def Spares (memStart : ℕ) (σ : Heaps) (pid va oldBrk : ℕ) : Prop :=
  ∀ j, va + pageSize * j < oldBrk → ∀ i k, ((i, k), pid) ∈ σ.out →
    (σ.proc pid).pgd ((va + pageSize * j) / pageSize) = some (memStart / pageSize + i) → k = 0

/-- **One round of the shrinking loop.**  Only translations and blocks go away. -/
theorem Inv.unmapRound (ha : Arena memStart memEnd) (h : Inv memStart memEnd σ free) {va : ℕ}
    (hspare : ∀ i k, ((i, k), pid) ∈ σ.out →
      (σ.proc pid).pgd (va / pageSize) = some (memStart / pageSize + i) → k = 0) :
    (∃ free', Inv memStart memEnd (σ.unmapRound pid va) free') ∧
    (∀ x ∈ (σ.unmapRound pid va).out, x ∈ σ.out) ∧
    ∀ v f, ((σ.unmapRound pid va).proc pid).pgd v = some f → (σ.proc pid).pgd v = some f := by
  unfold Heaps.unmapRound HeapMap.lookupPhysAddr
  dsimp only
  cases hpgd : (σ.proc pid).pgd (va / pageSize) with
  | none => exact ⟨⟨free, h⟩, fun _ hx => hx, fun _ _ hf => hf⟩
  | some f =>
    obtain ⟨b, i, hb, hi, rfl⟩ := h.mapped pid _ f hpgd
    have hlt := h.lt_numPages hb hi
    have hne : (memStart / pageSize + i) * pageSize ≠ 0 := by
      have hpos := ha.pos
      have hal := ha.aligned
      rw [pageSize_eq] at hal ⊢
      omega
    dsimp only
    rw [if_pos hne, ha.physToPage h hlt]
    -- the page is unmapped
    set σ1 := σ.setProc pid { σ.proc pid with pgd := (σ.proc pid).pgd.unmapPage va } with hσ1
    have hself : (σ1.proc pid).pgd = (σ.proc pid).pgd.unmapPage va := by
      rw [hσ1, setProc_self]
    have hsub : ∀ v f, (σ1.proc pid).pgd v = some f → (σ.proc pid).pgd v = some f := by
      intro v f hf
      rw [hself] at hf
      unfold HeapMap.unmapPage at hf
      by_cases hv : v = va / pageSize
      · rw [hv, update_self] at hf
        cases hf
      · rwa [update_of_ne hv] at hf
    have h1 : Inv memStart memEnd σ1 free := h.setProc_sub (h.brk pid) fun v f hf =>
      hsub v f (by rw [hself]; exact hf)
    refine ⟨?_, fun x hx => mem_of_mem_filter hx, hsub⟩
    by_cases halloc : σ.pmm.allocated i = 0
    · -- no block starts here
      have hsame : σ1.freePages (some i) 0 = σ1 := freePages_of_unallocated halloc
      rw [hsame]
      exact ⟨free, h1⟩
    · obtain ⟨k, hk⟩ := (h.buddy.allocated i).mp halloc
      have heq := h.buddy.tiling.eq_of_overlap (mem_append_left _ (mem_map_of_mem hb))
        (mem_append_left _ hk) hi (covers_start (i, k))
      dsimp only at heq
      subst heq
      obtain rfl := hspare i k hb hpgd
      -- the page was the only one with this frame
      refine h1.freePages hb fun pid' v j hj hf => ?_
      obtain rfl : j = i := by
        unfold Covers at hj
        dsimp only at hj
        omega
      by_cases hp : pid' = pid
      · subst hp
        obtain ⟨-, rfl⟩ := h.inj pid' v pid' _ _ (hsub v _ hf) hpgd
        rw [hself, HeapMap.unmapPage, update_self] at hf
        cases hf
      · rw [hσ1, setProc_other σ _ hp] at hf
        exact hp (h.inj pid' v pid _ _ hf hpgd).1

/-- **The shrinking loop.** -/
theorem Inv.unmapPages (ha : Arena memStart memEnd) {oldBrk : ℕ} (hold : oldBrk ≤ vmUserHi) (n : ℕ) :
    ∀ {σ : Heaps} {free : ℕ → List ℕ} {va : ℕ}, Inv memStart memEnd σ free →
      Spares memStart σ pid va oldBrk →
      ∃ free', Inv memStart memEnd (unmapPages pid oldBrk n σ va) free' := by
  induction n with
  | zero => exact fun h _ => ⟨_, h⟩
  | succ n ih =>
    intro σ free va h hspare
    rw [Heaps.unmapPages]
    by_cases hlt : va < oldBrk
    swap
    · rw [if_neg hlt]
      exact ⟨free, h⟩
    have hva : (va + pageSize) % 2 ^ 32 = va + pageSize := by
      unfold vmUserHi at hold
      rw [pageSize_eq]
      exact Nat.mod_eq_of_lt (by omega)
    obtain ⟨⟨free', h'⟩, hout, hsub⟩ := @Inv.unmapRound memStart memEnd σ free pid ha h va fun i k hb hf =>
      hspare 0 (by rwa [Nat.mul_zero, Nat.add_zero]) i k hb (by rwa [Nat.mul_zero, Nat.add_zero])
    rw [if_pos hlt, hva]
    refine ih h' fun j hj i k hb hf => ?_
    have hshift : va + pageSize + pageSize * j = va + pageSize * (j + 1) := by
      rw [Nat.mul_succ, Nat.add_assoc, Nat.add_comm pageSize]
    rw [hshift] at hj hf
    exact hspare (j + 1) hj i k (hout _ hb) (hsub _ _ hf)

/-! ### Runs -/

theorem inv_sysBrk (ha : Arena memStart memEnd) (h : Inv memStart memEnd σ free) {flags : ℕ}
    (hfits : σ.FitsBlock pid addr flags) (hspares : σ.SparesBlocks pid addr) :
    ∃ free', Inv memStart memEnd (σ.sysBrk pid addr flags).2.2 free' := by
  unfold sysBrk
  dsimp only
  by_cases hrange : addr < (σ.proc pid).heapStart ∨ vmUserHi < addr
  · rw [if_pos hrange]
    exact ⟨free, h⟩
  rw [if_neg hrange]
  have haddr : addr ≤ vmUserHi := by omega
  set p : HeapProc := { σ.proc pid with
      superpageEnabled := decide (flags / 2 % 2 = 1)
      contiguousEnabled := decide (flags % 2 = 1) }
  have h1 : Inv memStart memEnd (σ.setProc pid p) free :=
    h.setProc_sub (h.brk pid) fun _ _ hf => hf
  have hself := σ.setProc_self pid p
  set σ1 := σ.setProc pid p
  by_cases hup : (σ.proc pid).brk < addr
  · rw [if_pos hup]
    by_cases hsuper : flags / 2 % 2 = 1
    · rw [if_pos hsuper]
      exact h1.growSuper ha haddr
    · rw [if_neg hsuper]
      refine h1.growPages ha haddr ?_
      rw [hself]
      rcases hfits hup (by omega) with hc | hone
      · exact .inl (decide_eq_true hc)
      · exact .inr hone
  · rw [if_neg hup]
    by_cases hdown : addr < (σ.proc pid).brk
    · rw [if_pos hdown]
      have hloop : Spares memStart σ1 pid addr (σ.proc pid).brk := by
        intro j hj i k hb hf
        rw [hself] at hf
        refine hspares j hj i k hb ?_
        rw [(ha.pageToPhys h.memBase (h.lt_numPages hb (covers_start (i, k)))).2]
        exact hf
      obtain ⟨free', h2⟩ := Inv.unmapPages ha (h.brk pid) (pagesNeeded addr (σ.proc pid).brk) h1 hloop
      exact ⟨free', h2.setProc_sub haddr fun _ _ hf => hf⟩
    · rw [if_neg hdown]
      exact ⟨free, h1⟩

/-- **A heap has only frames of its own blocks**, in every run whose growths fit into
their block and whose shrinks free no block of more than one page. -/
theorem heap_own_frames (ha : Arena memStart memEnd)
    (hrun : ReflTransGen Step (init memStart memEnd) σ) : σ.OwnFrames := by
  have hinv : ∃ free, Inv memStart memEnd σ free := by
    induction hrun with
    | refl => exact inv_init ha
    | tail _ hstep ih =>
      obtain ⟨free, h⟩ := ih
      cases hstep with
      | brk pid addr flags hfits hspares => exact inv_sysBrk ha h hfits hspares
  obtain ⟨free, h⟩ := hinv
  exact ownFrames_of_inv ha h

theorem arena_one_super : Arena 0x1000000 0x1400000 :=
  ⟨by decide, by decide, by decide, by decide⟩

/-- A machine with one super page. -/
abbrev oneSuper : Heaps := init 0x1000000 0x1400000

/-- Process `1` grows by two contiguous pages and gives back the upper one. -/
theorem heap_own_frames_contiguous :
    ∃ σ, ReflTransGen Step (init 0x1000000 0x1400000) σ ∧
      (σ.proc 1).brk = 0x40001000 ∧ σ.OwnFrames := by
  have hgrow : Step oneSuper
      (oneSuper.sysBrk 1 0x40002000 1).2.2 :=
    .brk _ _ _ _ (fun _ _ => .inl rfl) fun j hj => absurd hj (by
      have hbrk : (oneSuper.proc 1).brk = 0x40000000 := rfl
      rw [hbrk]
      omega)
  have hshrink : Step (oneSuper.sysBrk 1 0x40002000 1).2.2
      ((oneSuper.sysBrk 1 0x40002000 1).2.2.sysBrk 1 0x40001000 1).2.2 := by
    refine .brk _ _ _ _ (fun _ _ => .inl rfl) fun j hj i k hb hf => ?_
    have hout : (oneSuper.sysBrk 1 0x40002000 1).2.2.out = [((0, 1), 1)] := by
      decide +kernel
    have hbrk : ((oneSuper.sysBrk 1 0x40002000 1).2.2.proc 1).brk = 0x40002000 := by
      decide +kernel
    have hpgd : ((oneSuper.sysBrk 1 0x40002000 1).2.2.proc 1).pgd 0x40001
        ≠ some ((oneSuper.sysBrk 1 0x40002000 1).2.2.pmm.pageToPhys 0
          / pageSize) := by
      decide +kernel
    -- the upper page is not the first one of the block
    rw [hout] at hb
    obtain ⟨rfl, rfl⟩ : i = 0 ∧ k = 1 := by simpa using hb
    rw [hbrk] at hj
    have hpage : (0x40001000 + pageSize * j) / pageSize = 0x40001 := by
      rw [pageSize_eq] at hj ⊢
      omega
    rw [hpage] at hf
    exact absurd hf hpgd
  have hrun := ReflTransGen.tail (.single hgrow) hshrink
  exact ⟨_, hrun, by decide +kernel, heap_own_frames arena_one_super hrun⟩

/-- A sequence of calls of `sys_brk`. -/
def brkRun (σ : Heaps) (calls : List (ℕ × ℕ × ℕ)) : Heaps :=
  calls.foldl (fun σ c => (σ.sysBrk c.1 c.2.1 c.2.2).2.2) σ

theorem brkRun_reachable (calls : List (ℕ × ℕ × ℕ)) (σ : Heaps) :
    ReflTransGen AnyStep σ (σ.brkRun calls) := by
  induction calls generalizing σ with
  | nil => exact .refl
  | cons c calls ih => exact .head (.brk σ c.1 c.2.1 c.2.2) (ih _)

theorem not_ownFrames {pid' v v' f : ℕ} (hne : pid ≠ pid') (hf : (σ.proc pid).pgd v = some f)
    (hf' : (σ.proc pid').pgd v' = some f) : ¬ σ.OwnFrames :=
  fun h => h.2 pid pid' v v' f hne hf hf'

/-- Two pages without the contiguous flag are mapped into a block of one page, and the
second frame is given to the next process.  And freeing the head of a block of two pages
with order `0` puts a page of another process back on a free list. -/
theorem heap_shares_frame :
    (∃ σ, ReflTransGen AnyStep (init 0x1000000 0x1400000) σ ∧ ¬ σ.OwnFrames) ∧
    ∃ calls, (∀ c ∈ calls, c.2.2 = 1) ∧ ¬ ((init 0x1000000 0x1400000).brkRun calls).OwnFrames := by
  refine ⟨⟨_, brkRun_reachable [(1, 0x40002000, 0), (2, 0x40001000, 0)] _, ?_⟩,
    [(1, 0x40001000, 1), (2, 0x40001000, 1), (3, 0x40001000, 1), (2, 0x40000000, 1),
      (1, 0x40000000, 1), (1, 0x40002000, 1), (2, 0x40001000, 1), (1, 0x40000000, 1),
      (1, 0x40001000, 1)], by simp, ?_⟩
  · exact @not_ownFrames _ 1 2 0x40001 0x40000 0x1001 (by decide) (by decide +kernel)
      (by decide +kernel)
  · exact @not_ownFrames _ 1 2 0x40000 0x40000 0x1003 (by decide) (by decide +kernel)
      (by decide +kernel)

end Heaps

end Mcertikos
