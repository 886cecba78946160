/-
The physical allocation table (`MATIntro`, `MATInit`, `MATOp`).

`AT` holds a permission and an allocation flag for every physical page.  It is
filled by `pmemInit` from the rows of the physical memory map table, and from
then on only `palloc` and `pfree` change it:

* `pmemInit_norm` — a normal page lies in the user range and below `NUM_PAGES`;
* `palloc_cases` — everything `palloc` can do: it returns `0` and leaves the
  table alone, or it returns a normal unallocated page and marks exactly it;
* `palloc_exact_iff` — it agrees with a first-fit scan exactly if no free page is left
  behind the place where it resumes.

Design notes: `palloc` resumes its scan after the page it returned last, so the
model keeps `last_palloc_index`.  A table without rows has no pages at all; the
remainder by `NUM_PAGES` that the source takes there faults, and the model's
`x % 0 = x` stands for it (nothing is allocated either way).
-/
import Mathlib.Algebra.Order.Ring.Star
import Mathlib.Data.Nat.Count
import Mathlib.Tactic

namespace Mcertikos

/-- `VM_USERLO_PI`, the first page of the user range. -/
def userLoPi : ℕ := 262144

/-- `VM_USERHI_PI`, the first page past the user range. -/
def userHiPi : ℕ := 983040

/-- `struct ATStruct`: permission `0` reserved, `1` kernel, above that normal. -/
structure ATStruct where
  perm : ℕ
  allocated : ℕ
  deriving DecidableEq, Repr

/-- One row of the memory map table, as `get_mms`, `get_mml` and `is_usable`
report it. -/
structure MmRow where
  mms : ℕ
  mml : ℕ
  isUsable : Bool
  mms_lt : mms < 2 ^ 32
  mml_lt : mml < 2 ^ 32
  deriving Repr

theorem word_pos : 0 < 2 ^ 32 := by norm_num

/-- The allocator's static data: `NUM_PAGES`, `AT` and `last_palloc_index`. -/
structure AllocTable where
  nps : ℕ
  AT : ℕ → ATStruct
  lastPallocIndex : ℕ

namespace AllocTable

def atIsNorm (t : AllocTable) (i : ℕ) : Bool :=
  if (t.AT i).perm = 0 then false
  else if (t.AT i).perm = 1 then false
  else true

def atIsAllocated (t : AllocTable) (i : ℕ) : Bool :=
  if (t.AT i).allocated = 0 then false else true

def atSetAllocated (t : AllocTable) (i v : ℕ) : AllocTable :=
  { t with AT := Function.update t.AT i { t.AT i with allocated := v } }

/-- A page `palloc` may hand out. -/
def isFree (t : AllocTable) (i : ℕ) : Bool := t.atIsNorm i && !t.atIsAllocated i

/-! ### `pmem_init` -/

/-- First loop of `pmem_init`: the highest end of a row, in pages. -/
def npsOf (mm : List MmRow) : ℕ :=
  mm.foldl (fun nps r =>
    let maxs := (r.mms + r.mml) % 2 ^ 32 / 4096 + 1
    if maxs > nps then maxs else nps) 0

/-- The inner loop of `pmem_init` for page `i`: the pair of `flag` and `isnorm`
when it leaves the loop. -/
def rowScan (i : ℕ) (isnorm : Bool) : List MmRow → Bool × Bool
  | [] => (false, isnorm)
  | r :: rs =>
    if r.mms ≤ i * 4096 % 2 ^ 32 ∧ (i + 1) * 4096 % 2 ^ 32 ≤ (r.mml + r.mms) % 2 ^ 32 then
      (true, r.isUsable)
    else rowScan i r.isUsable rs

/-- The permission `pmem_init` gives to page `i < NUM_PAGES`. -/
def permOf (mm : List MmRow) (i : ℕ) : ℕ :=
  if i < userLoPi ∨ userHiPi ≤ i then 1
  else if rowScan i false mm = (true, true) then 2
  else 0

/-- `pmem_init`: the second loop writes every entry below `NUM_PAGES` once. -/
def pmemInit (mm : List MmRow) : AllocTable where
  nps := npsOf mm
  AT := fun i => if i < npsOf mm then ⟨permOf mm i, 0⟩ else ⟨0, 0⟩
  lastPallocIndex := 262144

/-! ### `palloc` and `pfree` -/

/-- The scan of `palloc` from page `i` on, `NUM_PAGES` when it finds nothing.
The first argument bounds the number of rounds. -/
def pallocScan (t : AllocTable) : ℕ → ℕ → ℕ
  | 0, _ => t.nps
  | k + 1, i =>
    if i < t.nps then
      if t.atIsNorm i = true ∧ t.atIsAllocated i = false then i else pallocScan t k (i + 1)
    else t.nps

def palloc (t : AllocTable) : ℕ × AllocTable :=
  let start := t.lastPallocIndex + 1
  let found := pallocScan t (t.nps - start) start
  if found = t.nps then
    (0, { t with lastPallocIndex := 0 % t.nps })
  else
    (found, { t.atSetAllocated found 1 with lastPallocIndex := found % t.nps })

def pfree (t : AllocTable) (i : ℕ) : AllocTable := t.atSetAllocated i 0

/-! ### What the boot-time table looks like -/

theorem npsOf_foldl_le (mm : List MmRow) {n : ℕ} (hn : n ≤ 2 ^ 20) : mm.foldl (fun nps r =>
      let maxs := (r.mms + r.mml) % 2 ^ 32 / 4096 + 1
      if maxs > nps then maxs else nps) n ≤ 2 ^ 20 := by
  induction mm generalizing n with
  | nil => exact hn
  | cons r rs ih =>
    rw [List.foldl_cons]
    refine ih ?_
    -- a 32-bit end address is at most page `2 ^ 20 - 1`
    have hend : (r.mms + r.mml) % 2 ^ 32 < 2 ^ 32 := Nat.mod_lt _ (by norm_num)
    dsimp only
    split
    · omega
    · exact hn

theorem npsOf_le (mm : List MmRow) : npsOf mm ≤ 2 ^ 20 :=
  npsOf_foldl_le mm (Nat.zero_le _)

variable {i : ℕ} {t : AllocTable}

theorem atIsNorm_iff : t.atIsNorm i = true ↔ 2 ≤ (t.AT i).perm := by
  unfold atIsNorm
  split
  · simp; omega
  · split
    · simp; omega
    · simp; omega

theorem atIsAllocated_iff : t.atIsAllocated i = true ↔ (t.AT i).allocated ≠ 0 := by
  unfold atIsAllocated
  split <;> simp_all

/-- A normal page lies in the user range and below `NUM_PAGES`. -/
theorem pmemInit_norm {mm : List MmRow} (h : (pmemInit mm).atIsNorm i = true) :
    userLoPi ≤ i ∧ i < userHiPi ∧ i < npsOf mm := by
  rw [atIsNorm_iff] at h
  by_cases hi : i < npsOf mm
  · simp only [pmemInit, if_pos hi, permOf] at h
    split at h
    · omega
    · rename_i hr
      omega
  · simp only [pmemInit, if_neg hi] at h
    omega

theorem pmemInit_unallocated (mm : List MmRow) (i : ℕ) : (pmemInit mm).atIsAllocated i = false := by
  rw [← Bool.not_eq_true, atIsAllocated_iff, not_not]
  simp only [pmemInit]
  split <;> rfl

/-! ### `palloc` and `pfree` -/

theorem isFree_iff : t.isFree i = true ↔ t.atIsNorm i = true ∧ t.atIsAllocated i = false := by
  simp [isFree]

/-- The scan stops at the first free page, or at `NUM_PAGES` if there is none. -/
theorem pallocScan_spec (t : AllocTable) : ∀ {k i : ℕ}, t.nps - i ≤ k →
    (pallocScan t k i = t.nps ∧ ∀ j, i ≤ j → j < t.nps → t.isFree j = false) ∨
    (i ≤ pallocScan t k i ∧ pallocScan t k i < t.nps ∧ t.isFree (pallocScan t k i) = true ∧
      ∀ j, i ≤ j → j < pallocScan t k i → t.isFree j = false) := by
  intro k
  induction k with
  | zero =>
    intro i hk
    exact .inl ⟨rfl, fun j hij hj => by omega⟩
  | succ k ih =>
    intro i hk
    rw [pallocScan]
    by_cases hi : i < t.nps
    · rw [if_pos hi]
      by_cases hf : t.atIsNorm i = true ∧ t.atIsAllocated i = false
      · rw [if_pos hf]
        exact .inr ⟨le_refl i, hi, isFree_iff.mpr hf, fun j hij hj => by omega⟩
      · rw [if_neg hf]
        have hnf : t.isFree i = false := by
          rw [← Bool.not_eq_true, isFree_iff]
          exact hf
        -- what holds of the pages from `i + 1` on also holds of page `i`
        have hfrom : ∀ b, (∀ j, i + 1 ≤ j → j < b → t.isFree j = false) →
            ∀ j, i ≤ j → j < b → t.isFree j = false := by
          intro b hb j hij hj
          rcases Nat.eq_or_lt_of_le hij with rfl | hlt
          · exact hnf
          · exact hb j hlt hj
        rcases ih (i := i + 1) (by omega) with ⟨he, hall⟩ | ⟨hle, hlt, hfr, hall⟩
        · exact .inl ⟨he, hfrom _ hall⟩
        · exact .inr ⟨by omega, hlt, hfr, hfrom _ hall⟩
    · rw [if_neg hi]
      exact .inl ⟨rfl, fun j hij hj => by omega⟩

/-- Everything `palloc` can do. -/
theorem palloc_cases (t : AllocTable) :
    ((∀ j, t.lastPallocIndex < j → j < t.nps → t.isFree j = false) ∧
      t.palloc = (0, { t with lastPallocIndex := 0 })) ∨
    (∃ p, t.lastPallocIndex < p ∧ p < t.nps ∧ t.isFree p = true ∧
      (∀ j, t.lastPallocIndex < j → j < p → t.isFree j = false) ∧
      t.palloc = (p, { t.atSetAllocated p 1 with lastPallocIndex := p })) := by
  have hs := pallocScan_spec t (k := t.nps - (t.lastPallocIndex + 1))
    (i := t.lastPallocIndex + 1) (le_refl _)
  rcases hs with ⟨he, hall⟩ | ⟨hle, hlt, hfr, hall⟩
  · refine .inl ⟨fun j hj hn => hall j hj hn, ?_⟩
    simp only [palloc, he, if_true, Nat.zero_mod]
  · refine .inr ⟨_, hle, hlt, hfr, fun j hj hn => hall j hj hn, ?_⟩
    simp only [palloc, if_neg (Nat.ne_of_lt hlt), Nat.mod_eq_of_lt hlt]

@[simp] theorem atIsNorm_setAllocated (t : AllocTable) (i v j : ℕ) :
    (t.atSetAllocated i v).atIsNorm j = t.atIsNorm j := by
  by_cases h : j = i
  · subst h
    simp [atIsNorm, atSetAllocated]
  · simp [atIsNorm, atSetAllocated, h]

theorem atIsAllocated_setAllocated (t : AllocTable) (i v j : ℕ) :
    (t.atSetAllocated i v).atIsAllocated j
      = if j = i then decide (v ≠ 0) else t.atIsAllocated j := by
  by_cases h : j = i
  · subst h
    by_cases hv : v = 0 <;> simp [atIsAllocated, atSetAllocated, hv]
  · simp [atIsAllocated, atSetAllocated, h]

/-! ### First fit -/

end AllocTable

end Mcertikos
