/-
Address-space isolation.

A `FrameRef` is a place in the user part of some process's page structure that
can name a physical frame: a directory slot or a page-table slot.  In an
`Isolated` state every named frame is a normal allocated one, no frame is named
twice, and the kernel's part of all directories and the identity tables are
what boot made them.  The page tables live in frames of the same allocator, so
a write to a page-table slot is harmless only because no other slot lies in
that frame (`Isolated.getPtblEntry_write`).

* `isolated_pdirInitKern` — boot establishes isolation;
* `Isolated.exec` — every operation keeps it;
* `isolated_of_run` — so it holds along every run.
-/
import Mcertikos.Vmm.PageTable
import Mathlib.Logic.Relation

namespace Mcertikos

open Relation Memory AllocTable

/-- A slot of the page structures that can name a frame. -/
inductive FrameRef where
  | table (proc pde : ℕ)
  | page (proc pde pte : ℕ)
  deriving DecidableEq, Repr

/-- The processes other than the kernel. -/
def UserPid (proc : ℕ) : Prop := 1 ≤ proc ∧ proc < numIds

/-- Directory slots of the user range, of the processes other than the kernel. -/
def UserSlot (proc pde : ℕ) : Prop := 1 ≤ proc ∧ proc < numIds ∧ 256 ≤ pde ∧ pde < 960

namespace Vm

/-- The slot holds a nonzero entry for frame `f`. -/
def Names (s : Vm) : FrameRef → ℕ → Prop
  | .table p d, f => UserSlot p d ∧ s.getPdirEntry p d ≠ 0 ∧ s.getPdirEntry p d / 4096 = f
  | .page p d t, f =>
    UserSlot p d ∧ t < 1024 ∧ s.getPdirEntry p d ≠ 0 ∧ s.getPtblEntry p d t ≠ 0 ∧
      s.getPtblEntry p d t / 4096 = f

/-- The isolation invariant. -/
structure Isolated (K : KernelImage) (s : Vm) : Prop where
  norm_range : ∀ i, s.pmm.tbl.atIsNorm i = true → userLoPi ≤ i ∧ i < userHiPi
  alloc_norm : ∀ i, s.pmm.tbl.atIsAllocated i = true → s.pmm.tbl.atIsNorm i = true
  named : ∀ r f, s.Names r f → s.pmm.tbl.atIsNorm f = true ∧ s.pmm.tbl.atIsAllocated f = true
  distinct : ∀ r r' f, s.Names r f → s.Names r' f → r = r'
  present : ∀ p d t, UserSlot p d → t < 1024 → s.getPdirEntry p d ≠ 0 →
    s.getPtblEntry p d t ≠ 0 → s.getPtblEntry p d t % 2 = 1
  kernel : ∀ p d, p < numIds → (d < 256 ∨ 960 ≤ d ∧ d < 1024) →
    s.getPdirEntry p d = K.idptbl + d * 4096 + 7
  idptbl : ∀ i j, i < 1024 → j < 1024 →
    read32 s.mem (K.idptbl + i * 4096 + j * 4) = (i * 1024 + j) * 4096 + idPerm i

/-- An allocated frame that no slot names yet. -/
def Fresh (s : Vm) (f : ℕ) : Prop :=
  s.pmm.tbl.atIsNorm f = true ∧ s.pmm.tbl.atIsAllocated f = true ∧ ∀ r, ¬ s.Names r f

variable {K : KernelImage} {s : Vm}

/-! ### Page-table slots -/

variable {d p d' p' t v f page va perm : ℕ}

/-- A page table lies in one frame. -/
theorem read32_table {mem' : Mem} (ht : t < 1024)
    (h : ∀ x, x / 4096 = s.getPdirEntry p d / 4096 → mem' x = s.mem x) :
    read32 mem' (s.ptblAddr p d t) = read32 s.mem (s.ptblAddr p d t) := by
  refine read32_congr fun x hx hx' => h x ?_
  unfold ptblAddr at hx hx'
  unfold getPdirEntry
  omega

/-- A translation only depends on the frame of the page table. -/
theorem getPtblEntryByVa_congr {mem' : Mem} (h : s.getPdirEntry p (va / (4096 * 1024)) ≠ 0 →
      ∀ x, x / 4096 = s.getPdirEntry p (va / (4096 * 1024)) / 4096 → mem' x = s.mem x) :
    getPtblEntryByVa { s with mem := mem' } p va = s.getPtblEntryByVa p va := by
  unfold getPtblEntryByVa
  by_cases hd : s.getPdirEntry p (va / (4096 * 1024)) = 0
  · exact (if_pos hd).trans (if_pos hd).symm
  · have hread := read32_table (Nat.mod_lt (va / 4096) (by norm_num)) (h hd)
    exact (if_neg hd).trans (hread.trans (if_neg hd).symm)

/-- A page table of an isolated state lies in a user frame. -/
theorem Isolated.table_range (h : s.Isolated K) (hu : UserSlot p d) (hd : s.getPdirEntry p d ≠ 0) :
    userLoPi ≤ s.getPdirEntry p d / 4096 ∧ s.getPdirEntry p d / 4096 < userHiPi :=
  h.norm_range _ (h.named (.table p d) _ ⟨hu, hd, rfl⟩).1

/-- Slots of two page tables are apart unless they are the same slot. -/
theorem Isolated.ptblAddr_apart (h : s.Isolated K) {t' : ℕ}
    (hu : UserSlot p d) (hd : s.getPdirEntry p d ≠ 0) (ht : t < 1024)
    (hu' : UserSlot p' d') (hd' : s.getPdirEntry p' d' ≠ 0) (ht' : t' < 1024)
    (hne : ¬ (p' = p ∧ d' = d ∧ t' = t)) :
    s.ptblAddr p d t + 4 ≤ s.ptblAddr p' d' t' ∨ s.ptblAddr p' d' t' + 4 ≤ s.ptblAddr p d t := by
  unfold ptblAddr
  by_cases hf : s.getPdirEntry p d / 4096 = s.getPdirEntry p' d' / 4096
  · -- one frame: by distinctness one table, so two different slots of it
    have hr := h.distinct (.table p d) (.table p' d') _ ⟨hu, hd, hf⟩ ⟨hu', hd', rfl⟩
    obtain ⟨rfl, rfl⟩ := FrameRef.table.inj hr
    have htt : t' ≠ t := fun he => hne ⟨rfl, rfl, he⟩
    omega
  · unfold getPdirEntry at hf
    omega

/-- **A write to a page-table slot changes that slot only.** -/
theorem Isolated.getPtblEntry_write (h : s.Isolated K) (hv : v < 2 ^ 32)
    (hu : UserSlot p d) (hd : s.getPdirEntry p d ≠ 0) (ht : t < 1024)
    {t' : ℕ} (hu' : UserSlot p' d') (hd' : s.getPdirEntry p' d' ≠ 0) (ht' : t' < 1024) :
    getPtblEntry { s with mem := write32 s.mem (s.ptblAddr p d t) v } p' d' t'
      = if p' = p ∧ d' = d ∧ t' = t then v else s.getPtblEntry p' d' t' := by
  by_cases he : p' = p ∧ d' = d ∧ t' = t
  · rw [if_pos he]
    obtain ⟨rfl, rfl, rfl⟩ := he
    exact read32_write32_same hv
  · rw [if_neg he]
    exact read32_write32_of_disjoint (h.ptblAddr_apart hu hd ht hu' hd' ht' he)

/-- The identity tables are out of reach of page-table slots. -/
theorem Isolated.idptbl_write (h : s.Isolated K)
    (hu : UserSlot p d) (hd : s.getPdirEntry p d ≠ 0) {i j : ℕ} (hi : i < 1024) (hj : j < 1024) :
    read32 (write32 s.mem (s.ptblAddr p d t) v) (K.idptbl + i * 4096 + j * 4)
      = (i * 1024 + j) * 4096 + idPerm i := by
  rw [read32_write32_of_disjoint]
  · exact h.idptbl i j hi hj
  · have hr := (h.table_range hu hd).1
    have hlow := K.low
    unfold userLoPi getPdirEntry at hr
    unfold vmUserLo at hlow
    unfold ptblAddr
    omega

/-- What a slot write leaves of the names: the written slot names what it now
holds, every other slot what it named before. -/
theorem Isolated.names_write (h : s.Isolated K) (hv : v < 2 ^ 32)
    (hu : UserSlot p d) (hd : s.getPdirEntry p d ≠ 0) (ht : t < 1024) {r : FrameRef}
    (hn : Names { s with mem := write32 s.mem (s.ptblAddr p d t) v } r f) :
    (r = .page p d t ∧ v ≠ 0 ∧ v / 4096 = f) ∨ s.Names r f := by
  cases r with
  | table p' d' => exact .inr hn
  | page p' d' t' =>
    obtain ⟨hu', ht', hd', he, hf⟩ := hn
    have hd'' : s.getPdirEntry p' d' ≠ 0 := hd'
    rw [h.getPtblEntry_write hv hu hd ht hu' hd'' ht'] at he hf
    by_cases hs : p' = p ∧ d' = d ∧ t' = t
    · rw [if_pos hs] at he hf
      obtain ⟨rfl, rfl, rfl⟩ := hs
      exact .inl ⟨rfl, he, hf⟩
    · rw [if_neg hs] at he hf
      exact .inr ⟨hu', ht', hd'', he, hf⟩

/-- If one slot has got a fresh frame and the others name what they did, the names are still
those of allocated frames, and distinct. -/
theorem Isolated.names_fresh (h : s.Isolated K) {N : FrameRef → ℕ → Prop} {r₀ : FrameRef}
    (hN : ∀ r f, N r f → (r = r₀ ∧ s.Fresh f) ∨ s.Names r f) :
    (∀ r f, N r f → s.pmm.tbl.atIsNorm f = true ∧ s.pmm.tbl.atIsAllocated f = true) ∧
    ∀ r r' f, N r f → N r' f → r = r' := by
  refine ⟨fun r f hn => ?_, fun r r' f hn hn' => ?_⟩
  · rcases hN r f hn with ⟨-, hf⟩ | hold
    · exact ⟨hf.1, hf.2.1⟩
    · exact h.named r f hold
  · rcases hN r f hn with ⟨rfl, hf⟩ | hold <;> rcases hN r' f hn' with ⟨rfl, hf'⟩ | hold'
    · rfl
    · exact absurd hold' (hf.2.2 r')
    · exact absurd hold (hf'.2.2 r)
    · exact h.distinct r r' f hold hold'

/-- Writing `0` or a fresh frame into a page-table slot keeps isolation. -/
theorem Isolated.writeEntry (h : s.Isolated K) (hv : v < 2 ^ 32)
    (hu : UserSlot p d) (hd : s.getPdirEntry p d ≠ 0) (ht : t < 1024)
    (hok : v = 0 ∨ (v % 2 = 1 ∧ s.Fresh (v / 4096))) :
    Isolated K { s with mem := write32 s.mem (s.ptblAddr p d t) v } := by
  obtain ⟨hnamed, hdistinct⟩ := h.names_fresh fun r f hn =>
    (h.names_write hv hu hd ht hn).imp_left fun ⟨hr, hv0, hf⟩ => ⟨hr, hf ▸ (hok.resolve_left hv0).2⟩
  refine ⟨h.norm_range, h.alloc_norm, hnamed, hdistinct, ?_, h.kernel, fun i j hi hj =>
    h.idptbl_write hu hd hi hj⟩
  intro p' d' t' hu' ht' hd' he
  have hd'' : s.getPdirEntry p' d' ≠ 0 := hd'
  rw [h.getPtblEntry_write hv hu hd ht hu' hd'' ht'] at he ⊢
  by_cases hs : p' = p ∧ d' = d ∧ t' = t
  · rw [if_pos hs] at he ⊢
    exact (hok.resolve_left he).1
  · rw [if_neg hs] at he ⊢
    exact h.present p' d' t' hu' ht' hd'' he

/-! ### The allocator below -/

/-- Isolation reads of the allocator only which pages are normal and allocated:
a new table with the same normal pages that keeps every named frame will do. -/
theorem Isolated.of_pmm (h : s.Isolated K) {m : Pmm}
    (hnorm : ∀ i, m.tbl.atIsNorm i = s.pmm.tbl.atIsNorm i)
    (halloc : ∀ i, m.tbl.atIsAllocated i = true → s.pmm.tbl.atIsNorm i = true)
    (hkeep : ∀ r f, s.Names r f → m.tbl.atIsAllocated f = true) :
    Isolated K { s with pmm := m } where
  norm_range := fun i hi => h.norm_range i (by rw [← hnorm]; exact hi)
  alloc_norm := fun i hi => (hnorm i).trans (halloc i hi)
  named := by
    intro r f hn
    -- the names only depend on directories and memory
    have hn' : s.Names r f := by cases r <;> exact hn
    exact ⟨(hnorm f).trans (h.named r f hn').1, hkeep r f hn'⟩
  distinct := by
    intro r r' f hn hn'
    have hs : s.Names r f := by cases r <;> exact hn
    have hs' : s.Names r' f := by cases r' <;> exact hn'
    exact h.distinct r r' f hs hs'
  present := h.present
  kernel := h.kernel
  idptbl := h.idptbl

/-- `container_alloc` keeps isolation, and the page it returns is fresh. -/
theorem Isolated.containerAlloc (h : s.Isolated K) (id : ℕ) :
    (s.containerAlloc id).2.Isolated K ∧
    ((s.containerAlloc id).1 ≠ 0 → (s.containerAlloc id).2.Fresh (s.containerAlloc id).1) ∧
    ∀ f, s.Fresh f → (s.containerAlloc id).2.Fresh f ∧ (s.containerAlloc id).1 ≠ f := by
  have hne0 : ∀ f, s.Fresh f → 0 ≠ f := fun f hf h0 => by
    have hr := (h.norm_range f hf.1).1
    unfold userLoPi at hr
    omega
  rcases Pmm.containerAlloc_cases s.pmm id with
    ⟨_, he⟩ | ⟨_, c, _, ⟨_, he⟩ | ⟨p, _, _, hfree, _, he⟩⟩
  · simp only [Vm.containerAlloc, he]
    exact ⟨h, fun h0 => absurd rfl h0, fun f hf => ⟨hf, hne0 f hf⟩⟩
  · simp only [Vm.containerAlloc, he]
    refine ⟨h.of_pmm (fun _ => rfl) h.alloc_norm fun r f hn => (h.named r f hn).2, ?_, ?_⟩
    · exact fun h0 => absurd rfl h0
    · exact fun f hf => ⟨⟨hf.1, hf.2.1, fun r hn => hf.2.2 r (by cases r <;> exact hn)⟩, hne0 f hf⟩
  · obtain ⟨hnorm, hun⟩ := isFree_iff.mp hfree
    have hset : ∀ i, (s.pmm.tbl.atSetAllocated p 1).atIsAllocated i
        = if i = p then true else s.pmm.tbl.atIsAllocated i := fun i => by
      rw [atIsAllocated_setAllocated]
      simp
    simp only [Vm.containerAlloc, he]
    refine ⟨h.of_pmm (atIsNorm_setAllocated s.pmm.tbl p 1) ?_ ?_, fun _ => ⟨?_, ?_, ?_⟩, ?_⟩
    · intro i hi
      by_cases hip : i = p
      · rw [hip]
        exact hnorm
      · exact h.alloc_norm i (((hset i).trans (if_neg hip)).symm.trans hi)
    · intro r f hn
      refine (hset f).trans ?_
      split
      · rfl
      · exact (h.named r f hn).2
    · exact (atIsNorm_setAllocated s.pmm.tbl p 1 p).trans hnorm
    · exact (hset p).trans (if_pos rfl)
    · -- a named frame is allocated, this one was not
      intro r hn
      have hs : s.Names r p := by cases r <;> exact hn
      exact absurd (h.named r p hs).2 (by rw [hun]; simp)
    · intro f hf
      have hpf : f ≠ p := by
        rintro rfl
        exact absurd hf.2.1 (by rw [hun]; simp)
      refine ⟨⟨?_, ?_, fun r hn => hf.2.2 r (by cases r <;> exact hn)⟩, hpf.symm⟩
      · exact (atIsNorm_setAllocated s.pmm.tbl p 1 f).trans hf.1
      · exact (hset f).trans ((if_neg hpf).trans hf.2.1)

/-- `container_free` of a frame that no slot names keeps isolation. -/
theorem Isolated.containerFree (h : s.Isolated K) (id : ℕ)
    (hpage : ∀ r, ¬ s.Names r page) : (s.containerFree id page).Isolated K := by
  have hset : ∀ i, (s.pmm.tbl.pfree page).atIsAllocated i
      = if i = page then false else s.pmm.tbl.atIsAllocated i := fun i => by
    rw [pfree, atIsAllocated_setAllocated]
    simp
  have hfreed : Isolated K { s with pmm := { s.pmm with tbl := s.pmm.tbl.pfree page } } := by
    refine h.of_pmm (atIsNorm_setAllocated s.pmm.tbl page 0) ?_ ?_
    · intro i hi
      rw [hset] at hi
      split at hi
      · exact absurd hi Bool.false_ne_true
      · exact h.alloc_norm i hi
    · intro r f hn
      have hne : f ≠ page := fun he => hpage r (he ▸ hn)
      exact (hset f).trans ((if_neg hne).trans (h.named r f hn).2)
  unfold Vm.containerFree Pmm.containerFree
  dsimp only
  split
  · split
    · exact hfreed.of_pmm (fun _ => rfl) hfreed.alloc_norm fun r f hn => (hfreed.named r f hn).2
    · exact hfreed
  · exact h

/-! ### Page tables -/

theorem getPdirEntry_put (s : Vm) (p d v p' d' : ℕ) : (s.putPdirEntry p d v).getPdirEntry p' d'
      = if p' = p ∧ d' = d then v else s.getPdirEntry p' d' := by
  unfold putPdirEntry getPdirEntry
  by_cases hp : p' = p
  · subst hp
    by_cases hd : d' = d
    · simp [hd]
    · simp [hd]
  · simp [hp]

/-- The slots of a table whose directory entry a write leaves alone. -/
theorem ptblAddr_put (s : Vm) (t : ℕ) (hne : ¬ (p' = p ∧ d' = d)) :
    (s.putPdirEntry p d v).ptblAddr p' d' t = s.ptblAddr p' d' t := by
  have h := getPdirEntry_put s p d v p' d'
  rw [if_neg hne] at h
  unfold ptblAddr
  exact congrArg (fun e => e / 4096 * 4096 + t * 4) h

/-- A table that a directory write leaves alone holds what it held, if the frame
it lies in keeps its bytes. -/
theorem names_of_put {mem' : Mem} {r : FrameRef} (hr : ∀ t, r ≠ .table p d ∧ r ≠ .page p d t)
    (hmem : ∀ p' d', UserSlot p' d' → s.getPdirEntry p' d' ≠ 0 → ¬ (p' = p ∧ d' = d) →
      ∀ t, t < 1024 → read32 mem' (s.ptblAddr p' d' t) = read32 s.mem (s.ptblAddr p' d' t))
    (hn : Names { s.putPdirEntry p d v with mem := mem' } r f) : s.Names r f := by
  cases r with
  | table p' d' =>
    obtain ⟨hu, he, hf⟩ := hn
    have hne : ¬ (p' = p ∧ d' = d) := by
      rintro ⟨rfl, rfl⟩
      exact (hr 0).1 rfl
    have hg : getPdirEntry { s.putPdirEntry p d v with mem := mem' } p' d' = s.getPdirEntry p' d' :=
      (getPdirEntry_put s p d v p' d').trans (if_neg hne)
    rw [hg] at he hf
    exact ⟨hu, he, hf⟩
  | page p' d' t =>
    obtain ⟨hu, ht, hd, he, hf⟩ := hn
    have hne : ¬ (p' = p ∧ d' = d) := by
      rintro ⟨rfl, rfl⟩
      exact (hr t).2 rfl
    have hg : getPdirEntry { s.putPdirEntry p d v with mem := mem' } p' d' = s.getPdirEntry p' d' :=
      (getPdirEntry_put s p d v p' d').trans (if_neg hne)
    rw [hg] at hd
    have hent : getPtblEntry { s.putPdirEntry p d v with mem := mem' } p' d' t
        = s.getPtblEntry p' d' t := by
      unfold getPtblEntry
      exact (congrArg (read32 mem') (ptblAddr_put s t hne)).trans (hmem p' d' hu hd hne t ht)
    rw [hent] at he hf
    exact ⟨hu, ht, hd, he, hf⟩

/-- Entering a fresh frame with all words zero as page table keeps isolation, and
the other fresh frames stay fresh. -/
theorem Isolated.newTable (h : s.Isolated K) (hu : UserSlot p d)
    (hd : s.getPdirEntry p d = 0) (hf : s.Fresh f) {mem' : Mem}
    (hout : ∀ x, x / 4096 ≠ f → mem' x = s.mem x)
    (hzero : ∀ t, t < 1024 → read32 mem' (f * 4096 + t * 4) = 0) {s' : Vm}
    (hs' : s' = { s.putPdirEntry p d (f * 4096 + 7) with mem := mem' }) :
    s'.Isolated K ∧ s'.getPdirEntry p d ≠ 0 ∧ ∀ g, s.Fresh g → g ≠ f → s'.Fresh g := by
  have hget : ∀ p' d', s'.getPdirEntry p' d'
      = if p' = p ∧ d' = d then f * 4096 + 7 else s.getPdirEntry p' d' := by
    rw [hs']
    exact getPdirEntry_put s p d _
  have hent0 : ∀ t, t < 1024 → s'.getPtblEntry p d t = 0 := by
    intro t ht
    have haddr : s'.ptblAddr p d t = f * 4096 + t * 4 := by
      have hpd := hget p d
      rw [if_pos ⟨rfl, rfl⟩] at hpd
      unfold getPdirEntry at hpd
      unfold ptblAddr
      omega
    unfold getPtblEntry
    rw [haddr, hs']
    exact hzero t ht
  -- the tables in use lie in other frames
  have hsame : ∀ p' d', UserSlot p' d' → s.getPdirEntry p' d' ≠ 0 → ¬ (p' = p ∧ d' = d) →
      ∀ t, t < 1024 → read32 mem' (s.ptblAddr p' d' t) = read32 s.mem (s.ptblAddr p' d' t) := by
    exact fun p' d' hu' hd' _ t ht => read32_table ht fun x hx =>
      hout x fun he => hf.2.2 (.table p' d') ⟨hu', hd', hx.symm.trans he⟩
  have hnames : ∀ r g, s'.Names r g → (r = .table p d ∧ g = f) ∨ s.Names r g := by
    intro r g hn
    by_cases hr : r = .table p d
    · subst hr
      refine .inl ⟨rfl, ?_⟩
      obtain ⟨_, _, hg⟩ := hn
      rw [hget, if_pos ⟨rfl, rfl⟩] at hg
      omega
    · refine .inr (names_of_put (fun t => ⟨hr, ?_⟩) hsame (hs' ▸ hn))
      rintro rfl
      obtain ⟨_, ht, _, he, _⟩ := hn
      exact he (hent0 t ht)
  have hpmm : s'.pmm = s.pmm := by rw [hs']; rfl
  have hmem : s'.mem = mem' := by rw [hs']
  obtain ⟨hnamed, hdistinct⟩ := h.names_fresh fun r g hn =>
    (hnames r g hn).imp_left fun ⟨hr, hg⟩ => ⟨hr, hg.symm ▸ hf⟩
  rw [← hpmm] at hnamed
  refine ⟨⟨by rw [hpmm]; exact h.norm_range, by rw [hpmm]; exact h.alloc_norm, hnamed, hdistinct,
    ?_, ?_, ?_⟩, ?_, ?_⟩
  · intro p' d' t hu' ht hd' he
    by_cases hpd : p' = p ∧ d' = d
    · obtain ⟨rfl, rfl⟩ := hpd
      exact absurd (hent0 t ht) he
    · rw [hget, if_neg hpd] at hd'
      have hold : s'.getPtblEntry p' d' t = s.getPtblEntry p' d' t := by
        subst hs'
        exact (congrArg (read32 mem') (ptblAddr_put s t hpd)).trans (hsame p' d' hu' hd' hpd t ht)
      rw [hold] at he ⊢
      exact h.present p' d' t hu' ht hd' he
  · intro p' d' hp' hd'
    rw [hget, if_neg]
    · exact h.kernel p' d' hp' hd'
    · rintro ⟨_, rfl⟩
      have := hu.2.2
      omega
  · intro i j hi hj
    rw [hmem]
    refine (read32_congr fun x hx hx' => hout x ?_).trans (h.idptbl i j hi hj)
    have hlo := (h.norm_range f hf.1).1
    have hlow := K.low
    unfold userLoPi at hlo
    unfold vmUserLo at hlow
    omega
  · rw [hget, if_pos ⟨rfl, rfl⟩]
    omega
  · intro g hg hgf
    refine ⟨by rw [hpmm]; exact hg.1, by rw [hpmm]; exact hg.2.1, fun r hn => ?_⟩
    rcases hnames r g hn with ⟨_, he⟩ | hold
    · exact hgf he
    · exact hg.2.2 r hold

theorem ptblAddr_eq (s : Vm) (p d t : ℕ) : s.ptblAddr p d t = s.ptblAddr p d 0 + t * 4 := by
  unfold ptblAddr
  rw [Nat.zero_mul, Nat.add_zero]

/-- The clearing loop of `alloc_ptbl`. -/
theorem loop_rmvPtblEntry (s : Vm) (p d n : ℕ) :
    ∃ mem', loop (fun i t => t.rmvPtblEntry p d i) n s = { s with mem := mem' } ∧
      (∀ x, x < s.ptblAddr p d 0 ∨ s.ptblAddr p d n ≤ x → mem' x = s.mem x) ∧
      ∀ t, t < n → read32 mem' (s.ptblAddr p d t) = 0 := by
  refine loop_induct (P := fun i t => ∃ mem', t = { s with mem := mem' } ∧
      (∀ x, x < s.ptblAddr p d 0 ∨ s.ptblAddr p d i ≤ x → mem' x = s.mem x) ∧
      ∀ j, j < i → read32 mem' (s.ptblAddr p d j) = 0) ?_ n ?_
  · exact ⟨s.mem, rfl, fun _ _ => rfl, fun j hj => by omega⟩
  · rintro i - t ⟨mem', rfl, hout, hzero⟩
    refine ⟨write32 mem' (s.ptblAddr p d i) 0, rfl, fun x hx => ?_, fun j hj => ?_⟩
    · rw [ptblAddr_eq s p d (i + 1)] at hx
      have hi := ptblAddr_eq s p d i
      rw [write32_of_outside (by omega), hout x (by omega)]
    · by_cases hji : j = i
      · rw [hji, read32_write32_same (Nat.two_pow_pos 32)]
      · have hi := ptblAddr_eq s p d i
        have hj' := ptblAddr_eq s p d j
        rw [read32_write32_of_disjoint (by omega), hzero j (by omega)]

theorem allocPtbl_eq (s : Vm) (p va : ℕ) : s.allocPtbl p va = if (s.containerAlloc p).1 ≠ 0 then
        ((s.containerAlloc p).1, loop (fun i t => t.rmvPtblEntry p (va / (4096 * 1024)) i) 1024
            ((s.containerAlloc p).2.setPdirEntryByVa p va (s.containerAlloc p).1))
      else ((s.containerAlloc p).1, (s.containerAlloc p).2) := rfl

/-- **Everything `alloc_ptbl` can do** in an isolated state: no page is found, or a fresh frame is
cleared and entered as page table. -/
theorem Isolated.allocPtbl_cases (h : s.Isolated K) (p va : ℕ) :
    s.allocPtbl p va = (0, (s.containerAlloc p).2) ∨
    ∃ f mem', f ≠ 0 ∧ (s.containerAlloc p).1 = f ∧ (s.containerAlloc p).2.Fresh f ∧
      (∀ x, x / 4096 ≠ f → mem' x = s.mem x) ∧
      (∀ t, t < 1024 → read32 mem' (f * 4096 + t * 4) = 0) ∧
      s.allocPtbl p va = (f, { (s.containerAlloc p).2.putPdirEntry p (va / (4096 * 1024))
        (f * 4096 + 7) with mem := mem' }) := by
  obtain ⟨h1, hfresh, -⟩ := h.containerAlloc p
  have hmem : (s.containerAlloc p).2.mem = s.mem := rfl
  rw [allocPtbl_eq, ← hmem]
  generalize (s.containerAlloc p).2 = s1 at *
  generalize (s.containerAlloc p).1 = pi at *
  by_cases h0 : pi = 0
  · rw [if_neg (not_not.mpr h0), h0]
    exact .inl rfl
  · rw [if_pos h0]
    have hf := hfresh h0
    have hrange := (h1.norm_range pi hf.1).2
    have hval : (pi * 4096 + 7) % 2 ^ 32 = pi * 4096 + 7 := by
      unfold userHiPi at hrange
      omega
    have hset : s1.setPdirEntryByVa p va pi
        = s1.putPdirEntry p (va / (4096 * 1024)) (pi * 4096 + 7) := by
      unfold setPdirEntryByVa setPdirEntry
      rw [hval]
    -- the slots cleared are those of the new frame
    have haddr : ∀ t, (s1.setPdirEntryByVa p va pi).ptblAddr p (va / (4096 * 1024)) t
        = pi * 4096 + t * 4 := by
      intro t
      have hg := getPdirEntry_put s1 p (va / (4096 * 1024)) (pi * 4096 + 7) p (va / (4096 * 1024))
      rw [if_pos ⟨rfl, rfl⟩] at hg
      unfold getPdirEntry at hg
      rw [hset]
      unfold ptblAddr
      omega
    obtain ⟨mem', hloop, hout, hzero⟩ :=
      loop_rmvPtblEntry (s1.setPdirEntryByVa p va pi) p (va / (4096 * 1024)) 1024
    refine .inr ⟨pi, mem', h0, rfl, hf, fun x hx => ?_, fun t ht => ?_, ?_⟩
    · refine hout x ?_
      rw [haddr, haddr]
      omega
    · rw [← haddr]
      exact hzero t ht
    · rw [hloop, hset]

/-- `alloc_ptbl` for an empty directory slot. -/
theorem Isolated.allocPtbl (h : s.Isolated K) (hu : UserSlot p (va / (4096 * 1024)))
    (hd : s.getPdirEntry p (va / (4096 * 1024)) = 0) :
    (s.allocPtbl p va).2.Isolated K ∧
    ((s.allocPtbl p va).1 ≠ 0 → (s.allocPtbl p va).2.getPdirEntry p (va / (4096 * 1024)) ≠ 0) ∧
    ∀ g, s.Fresh g → (s.allocPtbl p va).2.Fresh g := by
  obtain ⟨h1, -, hkeep⟩ := h.containerAlloc p
  rcases h.allocPtbl_cases p va with he | ⟨f, mem', -, hpi, hf, hout, hzero, he⟩
  · rw [he]
    exact ⟨h1, fun hn => absurd rfl hn, fun g hg => (hkeep g hg).1⟩
  · rw [he]
    have hnew := h1.newTable hu hd hf hout hzero rfl
    exact ⟨hnew.1, fun _ => hnew.2.1,
      fun g hg => hnew.2.2 g (hkeep g hg).1 fun heq => (hkeep g hg).2 (hpi.trans heq.symm)⟩

/-! ### The operations -/

/-- A virtual address of the user range lies behind a user directory slot. -/
theorem userSlot_of_va (hp : UserPid p) (hlo : vmUserLo ≤ va)
    (hhi : va < vmUserHi) : UserSlot p (va / (4096 * 1024)) := by
  unfold vmUserLo at hlo
  unfold vmUserHi at hhi
  exact ⟨hp.1, hp.2, by omega, by omega⟩

theorem Isolated.setPtblEntryByVa (h : s.Isolated K)
    (hu : UserSlot p (va / (4096 * 1024))) (hd : s.getPdirEntry p (va / (4096 * 1024)) ≠ 0)
    (hf : s.Fresh page) (hperm : perm < 4096) (hodd : perm % 2 = 1) :
    (s.setPtblEntryByVa p va page perm).Isolated K := by
  have hrange := (h.norm_range page hf.1).2
  unfold userHiPi at hrange
  have hval : (page * 4096 + perm) % 2 ^ 32 = page * 4096 + perm := by omega
  unfold Vm.setPtblEntryByVa setPtblEntry
  rw [hval]
  refine h.writeEntry (by omega) hu hd (Nat.mod_lt _ (by norm_num)) (.inr ⟨by omega, ?_⟩)
  have hpage : (page * 4096 + perm) / 4096 = page := by omega
  rw [hpage]
  exact hf

theorem mapPage_of_table (page perm : ℕ) (hd : s.getPdirEntryByVa p va ≠ 0) :
    s.mapPage p va page perm = (0, s.setPtblEntryByVa p va page perm) := by
  simp only [Vm.mapPage, if_pos hd]
  exact if_pos (by decide)

theorem mapPage_of_no_table (page perm : ℕ) (hd : s.getPdirEntryByVa p va = 0) :
    s.mapPage p va page perm = if (s.allocPtbl p va).1 ≠ 0 ∧ (s.allocPtbl p va).1 ≠ magicNumber then
        ((s.allocPtbl p va).1, (s.allocPtbl p va).2.setPtblEntryByVa p va page perm)
      else (magicNumber, (s.allocPtbl p va).2) := by
  simp only [Vm.mapPage, hd, ne_eq, not_true_eq_false, if_false]
  by_cases h0 : (s.allocPtbl p va).1 = 0
  · simp [h0]
  · by_cases hm : (s.allocPtbl p va).1 = magicNumber
    · simp [hm]
    · simp [h0, hm]

/-- `map_page` of a fresh frame. -/
theorem Isolated.mapPage (h : s.Isolated K)
    (hu : UserSlot p (va / (4096 * 1024))) (hf : s.Fresh page) (hperm : perm < 4096)
    (hodd : perm % 2 = 1) : (s.mapPage p va page perm).2.Isolated K := by
  by_cases hd : s.getPdirEntry p (va / (4096 * 1024)) = 0
  · obtain ⟨hiso, hentry, hkeep⟩ := h.allocPtbl hu hd
    rw [mapPage_of_no_table page perm hd]
    split
    · rename_i hr
      exact hiso.setPtblEntryByVa hu (hentry hr.1) (hkeep page hf) hperm hodd
    · exact hiso
  · rw [mapPage_of_table page perm hd]
    exact h.setPtblEntryByVa hu hd hf hperm hodd

theorem Isolated.allocPage (h : s.Isolated K)
    (hu : UserSlot p (va / (4096 * 1024))) (hperm : perm < 4096) (hodd : perm % 2 = 1) :
    (s.allocPage p va perm).2.Isolated K := by
  obtain ⟨hiso, hfresh, _⟩ := h.containerAlloc p
  unfold Vm.allocPage
  by_cases h0 : (s.containerAlloc p).1 = 0
  · simp only [if_pos h0]
    exact hiso
  · simp only [if_neg h0]
    exact hiso.mapPage hu (hfresh h0) hperm hodd

theorem Isolated.unmapPage (h : s.Isolated K) (hu : UserSlot p (va / (4096 * 1024))) :
    (s.unmapPage p va).2.Isolated K := by
  unfold Vm.unmapPage getPtblEntryByVa
  by_cases hd : s.getPdirEntry p (va / (4096 * 1024)) = 0
  · simp only [if_pos hd, ne_eq, not_true_eq_false, if_false]
    exact h
  · simp only [if_neg hd]
    split
    · exact h.writeEntry (Nat.two_pow_pos 32) hu hd (Nat.mod_lt _ (by norm_num)) (.inl rfl)
    · exact h

/-- Removing a directory entry leaves its page table and pages without a name. -/
theorem Isolated.rmvPdirEntry (h : s.Isolated K) (hu : UserSlot p d) :
    (s.rmvPdirEntry p d).Isolated K ∧
    ∀ r f, (s.rmvPdirEntry p d).Names r f → r ≠ .table p d ∧ s.Names r f := by
  have hget := getPdirEntry_put s p d 0
  have hnames : ∀ r f, (s.rmvPdirEntry p d).Names r f → r ≠ .table p d ∧ s.Names r f := by
    intro r f hn
    have hr : ∀ t, r ≠ .table p d ∧ r ≠ .page p d t := by
      intro t
      constructor
      · rintro rfl
        exact hn.2.1 ((hget p d).trans (if_pos ⟨rfl, rfl⟩))
      · rintro rfl
        exact hn.2.2.1 ((hget p d).trans (if_pos ⟨rfl, rfl⟩))
    exact ⟨(hr 0).1, names_of_put hr (fun _ _ _ _ _ _ _ => rfl) hn⟩
  refine ⟨⟨h.norm_range, h.alloc_norm, ?_, ?_, ?_, ?_, h.idptbl⟩, hnames⟩
  · exact fun r f hn => h.named r f (hnames r f hn).2
  · exact fun r r' f hn hn' => h.distinct r r' f (hnames r f hn).2 (hnames r' f hn').2
  · intro p' d' t hu' ht hd he
    -- a present slot of a table is a name of it
    obtain ⟨_, hold⟩ := hnames (.page p' d' t) _ ⟨hu', ht, hd, he, rfl⟩
    have hpd : ¬ (p' = p ∧ d' = d) := fun hpd => hd ((hget p' d').trans (if_pos hpd))
    have hent : (s.rmvPdirEntry p d).getPtblEntry p' d' t = s.getPtblEntry p' d' t :=
      congrArg (read32 s.mem) (ptblAddr_put s t hpd)
    rw [hent]
    exact h.present p' d' t hu' ht hold.2.2.1 hold.2.2.2.1
  · intro p' d' hp' hd'
    refine (hget p' d').trans ((if_neg ?_).trans (h.kernel p' d' hp' hd'))
    rintro ⟨_, rfl⟩
    have := hu.2.2
    omega

theorem Isolated.freePtbl (h : s.Isolated K) (hu : UserSlot p (va / (4096 * 1024))) :
    (s.freePtbl p va).Isolated K := by
  obtain ⟨hiso, hnames⟩ := h.rmvPdirEntry hu
  refine hiso.containerFree p fun r hn => ?_
  obtain ⟨hr, hold⟩ := hnames r _ hn
  by_cases hd : s.getPdirEntry p (va / (4096 * 1024)) = 0
  · -- an empty slot: the page freed is page `0`, which is no user page
    have hlo := (h.norm_range _ (h.named r _ hold).1).1
    unfold getPdirEntryByVa userLoPi at hlo
    rw [hd] at hlo
    omega
  · exact hr (h.distinct r (.table p _) _ hold ⟨hu, hd, rfl⟩)

/-! ### Boot -/

theorem idptblInit_spec (K : KernelImage) (m : Pmm) (mem : Mem) :
    (idptblInit K m mem).pmm = m ∧
    ∀ i j, i < 1024 → j < 1024 → read32 (idptblInit K m mem).mem (K.idptbl + i * 4096 + j * 4)
      = (i * 1024 + j) * 4096 + idPerm i := by
  -- what is written when the loops are about to do entry `(i, j)`
  let Filled : ℕ → ℕ → Vm → Prop := fun i j t => t.pmm = m ∧
    ∀ i' j', j' < 1024 → i' < i ∨ i' = i ∧ j' < j →
      read32 t.mem (K.idptbl + i' * 4096 + j' * 4) = (i' * 1024 + j') * 4096 + idPerm i'
  have hall : Filled 1024 0 (idptblInit K m mem) := by
    refine loop_induct (fun i t => Filled i 0 t) ⟨rfl, fun i j _ hij => by omega⟩ 1024 ?_
    intro i hi t ht
    have hrow : Filled i 1024
        (loop (fun j s => setPtblEntryIdentity K s i j (idPerm i)) 1024 t) := by
      refine loop_induct (fun j t => Filled i j t) ht 1024 ?_
      rintro j hj u ⟨hpmm, hfill⟩
      refine ⟨hpmm, fun i' j' hj' hij => ?_⟩
      unfold setPtblEntryIdentity
      by_cases he : i' = i ∧ j' = j
      · obtain ⟨rfl, rfl⟩ := he
        refine read32_write32_same ?_
        unfold idPerm
        split <;> omega
      · rw [read32_write32_of_disjoint (by omega)]
        exact hfill i' j' hj' (by omega)
    exact ⟨hrow.1, fun i' j' hj' hij => hrow.2 i' j' hj' (by omega)⟩
  exact ⟨hall.1, fun i j hi hj => hall.2 i j hj (.inl hi)⟩

theorem pdirInit_spec (K : KernelImage) (m : Pmm) (mem : Mem) :
    (pdirInit K m mem).pmm = m ∧ (pdirInit K m mem).mem = (idptblInit K m mem).mem ∧
    ∀ p d, p < numIds → d < 1024 → (pdirInit K m mem).getPdirEntry p d
      = if d < 256 ∨ 960 ≤ d then K.idptbl + d * 4096 + 7 else 0 := by
  let Filled : ℕ → ℕ → Vm → Prop := fun i j t => t.pmm = m ∧
    t.mem = (idptblInit K m mem).mem ∧ ∀ p d, d < 1024 → p < i ∨ p = i ∧ d < j →
      t.getPdirEntry p d = if d < 256 ∨ 960 ≤ d then K.idptbl + d * 4096 + 7 else 0
  have hall : Filled numIds 0 (pdirInit K m mem) := by
    refine loop_induct (fun i t => Filled i 0 t)
      ⟨(idptblInit_spec K m mem).1, rfl, fun p d _ hp => by omega⟩ numIds ?_
    intro i hi t ht
    have hrow : Filled i 1024 (loop (fun j s =>
        if j < 256 ∨ 960 ≤ j then setPdirEntryIdentity K s i j else rmvPdirEntry s i j) 1024 t) := by
      refine loop_induct (fun j t => Filled i j t) ht 1024 ?_
      rintro j hj u ⟨hpmm, hmem, hfill⟩
      -- both branches write slot `(i, j)` and nothing else
      have hput : (if j < 256 ∨ 960 ≤ j then setPdirEntryIdentity K u i j else rmvPdirEntry u i j)
          = u.putPdirEntry i j (if j < 256 ∨ 960 ≤ j then K.idptbl + j * 4096 + 7 else 0) := by
        split <;> rfl
      rw [hput]
      refine ⟨hpmm, hmem, fun p d hd hpd => ?_⟩
      rw [getPdirEntry_put]
      by_cases he : p = i ∧ d = j
      · rw [if_pos he, he.2]
      · rw [if_neg he]
        exact hfill p d hd (by omega)
    exact ⟨hrow.1, hrow.2.1, fun p d hd hp => hrow.2.2 p d hd (by omega)⟩
  exact ⟨hall.1, hall.2.1, fun p d hp hd => hall.2.2 p d hd (.inl hp)⟩

theorem pdirInitKern_spec (K : KernelImage) (m : Pmm) (mem : Mem) :
    (pdirInitKern K m mem).pmm = m ∧ (pdirInitKern K m mem).mem = (idptblInit K m mem).mem ∧
    ∀ p d, p < numIds → d < 1024 → (pdirInitKern K m mem).getPdirEntry p d
      = if p = 0 ∨ d < 256 ∨ 960 ≤ d then K.idptbl + d * 4096 + 7 else 0 := by
  obtain ⟨hpmm, hmem, hdir⟩ := pdirInit_spec K m mem
  let Filled : ℕ → Vm → Prop := fun n t => t.pmm = m ∧ t.mem = (idptblInit K m mem).mem ∧
    ∀ p d, p < numIds → d < 1024 → t.getPdirEntry p d
      = if (p = 0 ∧ d < 256 + n) ∨ d < 256 ∨ 960 ≤ d then K.idptbl + d * 4096 + 7 else 0
  have hall : Filled (960 - 256) (pdirInitKern K m mem) := by
    refine loop_induct Filled ⟨hpmm, hmem, fun p d hp hd => ?_⟩ (960 - 256) ?_
    · exact (hdir p d hp hd).trans (if_congr (by omega) rfl rfl)
    · rintro i hi t ⟨hpmm, hmem, hdir⟩
      refine ⟨hpmm, hmem, fun p d hp hd => ?_⟩
      unfold setPdirEntryIdentity
      rw [getPdirEntry_put, hdir p d hp hd]
      by_cases he : p = 0 ∧ d = 256 + i
      · rw [if_pos he, if_pos (by omega), he.2]
      · rw [if_neg he]
        exact if_congr (by omega) rfl rfl
  refine ⟨hall.1, hall.2.1, fun p d hp hd => (hall.2.2 p d hp hd).trans ?_⟩
  exact if_congr (by omega) rfl rfl

/-- **Boot establishes isolation**, whatever the memory map and the contents of
the memory are. -/
theorem isolated_pdirInitKern (K : KernelImage) (mm : List MmRow) (beyond : ℕ → SContainer)
    (mem : Mem) : (pdirInitKern K (Pmm.containerInit mm beyond) mem).Isolated K := by
  obtain ⟨hpmm, hmem, hdir⟩ := pdirInitKern_spec K (Pmm.containerInit mm beyond) mem
  set s := pdirInitKern K (Pmm.containerInit mm beyond) mem
  have htbl : s.pmm.tbl = pmemInit mm := by rw [hpmm]; rfl
  have hempty : ∀ p d, UserSlot p d → s.getPdirEntry p d = 0 := by
    rintro p d ⟨hp, hp', hd, hd'⟩
    rw [hdir p d hp' (by omega), if_neg (by omega)]
  have hnone : ∀ r f, ¬ s.Names r f := by
    intro r f hn
    cases r with
    | table p d => exact hn.2.1 (hempty p d hn.1)
    | page p d t => exact hn.2.2.1 (hempty p d hn.1)
  refine ⟨?_, ?_, ?_, ?_, ?_, ?_, ?_⟩
  · intro i hi
    rw [htbl] at hi
    exact ⟨(pmemInit_norm hi).1, (pmemInit_norm hi).2.1⟩
  · intro i hi
    rw [htbl, pmemInit_unallocated] at hi
    exact absurd hi Bool.false_ne_true
  · exact fun r f hn => absurd hn (hnone r f)
  · exact fun r _ f hn _ => absurd hn (hnone r f)
  · exact fun p d _ hu _ hd _ => absurd (hempty p d hu) hd
  · intro p d hp hd
    rw [hdir p d hp (by omega), if_pos (by omega)]
  · rw [hmem]
    exact (idptblInit_spec K _ mem).2

/-! ### Runs -/

end Vm

/-- The calls that change address spaces. -/
inductive VmOp where
  | split (id quota : ℕ)
  | allocPage (pid va perm : ℕ)
  | unmapPage (pid va : ℕ)
  | freePtbl (pid va : ℕ)

namespace Vm

def exec (s : Vm) : VmOp → Vm
  | .split id quota => (s.allocMemQuota id quota).2
  | .allocPage pid va perm => (s.allocPage pid va perm).2
  | .unmapPage pid va => (s.unmapPage pid va).2
  | .freePtbl pid va => s.freePtbl pid va

/-- Splits go to fresh ids, mappings of user processes to the user range with
`PTE_P` among the permissions. -/
def Allowed (s : Vm) : VmOp → Prop
  | .split id _ => s.pmm.childIndex id < numIds ∧
      (s.pmm.CONTAINER (s.pmm.childIndex id)).used = 0
  | .allocPage pid va perm => (1 ≤ pid ∧ pid < numIds) ∧ (vmUserLo ≤ va ∧ va < vmUserHi) ∧
      perm < 4096 ∧ perm % 2 = 1
  | .unmapPage pid va => (1 ≤ pid ∧ pid < numIds) ∧ (vmUserLo ≤ va ∧ va < vmUserHi)
  | .freePtbl pid va => (1 ≤ pid ∧ pid < numIds) ∧ (vmUserLo ≤ va ∧ va < vmUserHi)

/-- One call, by any process. -/
def Step (s s' : Vm) : Prop := ∃ op, s.Allowed op ∧ s' = s.exec op

variable {K : KernelImage} {s s' : Vm}

theorem Isolated.exec (h : s.Isolated K) {op : VmOp} (hop : s.Allowed op) :
    (s.exec op).Isolated K := by
  cases op with
  | split id quota =>
    -- only the containers change
    exact h.of_pmm (fun _ => rfl) h.alloc_norm fun r f hn => (h.named r f hn).2
  | allocPage pid va perm =>
    obtain ⟨⟨h1, h2⟩, ⟨h3, h4⟩, h5, h6⟩ := hop
    exact h.allocPage (userSlot_of_va ⟨h1, h2⟩ h3 h4) h5 h6
  | unmapPage pid va =>
    obtain ⟨⟨h1, h2⟩, h3, h4⟩ := hop
    exact h.unmapPage (userSlot_of_va ⟨h1, h2⟩ h3 h4)
  | freePtbl pid va =>
    obtain ⟨⟨h1, h2⟩, h3, h4⟩ := hop
    exact h.freePtbl (userSlot_of_va ⟨h1, h2⟩ h3 h4)

theorem isolated_of_run (h : s.Isolated K) (hrun : ReflTransGen Step s s') : s'.Isolated K := by
  induction hrun with
  | refl => exact h
  | tail _ hstep ih =>
    obtain ⟨op, hop, rfl⟩ := hstep
    exact ih.exec hop

/-- **Address-space isolation.**  In every state reached from boot, the frames
named by user directory and page-table entries are normal, allocated and
pairwise distinct, and the kernel's directory entries and identity tables have
the values boot gave them. -/
theorem addressSpace_isolation (K : KernelImage) (mm : List MmRow) (beyond : ℕ → SContainer)
    (mem : Mem) {s : Vm}
    (hrun : ReflTransGen Step (pdirInitKern K (Pmm.containerInit mm beyond) mem) s) :
    (∀ r f, s.Names r f → s.pmm.tbl.atIsNorm f = true ∧ s.pmm.tbl.atIsAllocated f = true) ∧
    (∀ r r' f f', s.Names r f → s.Names r' f' → r ≠ r' → f ≠ f') ∧
    (∀ p d, p < numIds → (d < 256 ∨ 960 ≤ d ∧ d < 1024) →
      s.getPdirEntry p d = K.idptbl + d * 4096 + 7) ∧
    ∀ i j, i < 1024 → j < 1024 →
      read32 s.mem (K.idptbl + i * 4096 + j * 4) = (i * 1024 + j) * 4096 + idPerm i := by
  have h := isolated_of_run (isolated_pdirInitKern K mm beyond mem) hrun
  refine ⟨h.named, ?_, h.kernel, h.idptbl⟩
  intro r r' f f' hn hn' hne he
  subst he
  exact hne (h.distinct r r' f hn hn')

/-- An image with the identity tables at 4 MB. -/
def sampleImage : KernelImage := ⟨0x400000, by norm_num, by decide⟩

/-- Boot of a machine with 3 GB of usable memory, all of it zero. -/
def sampleBoot : Vm :=
  pdirInitKern sampleImage
    (Pmm.containerInit [⟨0, 0xC0000000, true, word_pos, by norm_num⟩] fun _ => ⟨0, 0, 0, 0, 0⟩)
    fun _ => 0

/-- Its allocator. -/
def samplePmm : Pmm :=
  Pmm.containerInit [⟨0, 0xC0000000, true, word_pos, by norm_num⟩] fun _ => ⟨0, 0, 0, 0, 0⟩

theorem sampleBoot_pmm : sampleBoot.pmm = samplePmm := (pdirInitKern_spec _ _ _).1

theorem sampleBoot_pdir {p d : ℕ} (hu : UserSlot p d) : sampleBoot.getPdirEntry p d = 0 := by
  obtain ⟨hp, hp', hd, hd'⟩ := hu
  exact ((pdirInitKern_spec _ _ _).2.2 p d hp' (by omega)).trans (if_neg (by omega))

theorem pmm_split (s : Vm) (id quota : ℕ) :
    (s.exec (.split id quota)).pmm = (s.pmm.containerSplit id quota).2 := rfl

theorem pdir_split (s : Vm) (id quota : ℕ) :
    (s.exec (.split id quota)).getPdirEntry = s.getPdirEntry := rfl

/-- The first process can be created with any quota. -/
theorem run_split (quota : ℕ) :
    ReflTransGen Step sampleBoot (sampleBoot.exec (.split 0 quota)) := by
  refine .single ⟨.split 0 quota, ?_, rfl⟩
  unfold Vm.Allowed
  rw [sampleBoot_pmm]
  exact ⟨by decide, by decide⟩

theorem addressSpace_isolation_first_page : ReflTransGen Step sampleBoot
      ((sampleBoot.exec (.split 0 10)).exec (.allocPage 1 0x40000000 7)) ∧
    ∀ r r' f f', ((sampleBoot.exec (.split 0 10)).exec (.allocPage 1 0x40000000 7)).Names r f →
      ((sampleBoot.exec (.split 0 10)).exec (.allocPage 1 0x40000000 7)).Names r' f' →
      r ≠ r' → f ≠ f' := by
  have hrun : ReflTransGen Step sampleBoot
      ((sampleBoot.exec (.split 0 10)).exec (.allocPage 1 0x40000000 7)) :=
    (run_split 10).tail
      ⟨.allocPage 1 0x40000000 7, ⟨by decide, by decide, by decide, by decide⟩, rfl⟩
  exact ⟨hrun, (addressSpace_isolation _ _ _ _ hrun).2.1⟩

end Vm

end Mcertikos
