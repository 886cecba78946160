/-
The loops of `pmem_init` and `container_init` on 32-bit words.

`pmem_init` runs over the memory map table twice: once for the number of pages, and once more
for every page of the user range, where the inner loop stops at the first row that holds the
page and leaves `isnorm` with the answer of the last row it has looked at.

* `pmemLoop_at` — the second loop writes every entry below `NUM_PAGES` once and no other;
* `rowScan_iff` — the inner loop finds a usable page exactly if the first row that contains all
  of its bytes is usable;
* `pmemInit_classifies` — both together, for tables whose rows end below `2 ^ 32`: no sum and no
  product in the loops wraps, and the root quota of `container_init` is the number of pages
  found.

Design notes: the loops start from any allocation table; `pmemInitOn_zero` is the closed form
that the rest of the development uses for the zero-initialised one.
-/
import Mcertikos.Pmm.Container

namespace Mcertikos

open Finset Function

/-- All bytes of page `i` lie in the row. -/
def MmRow.Contains (r : MmRow) (i : ℕ) : Prop :=
  ∀ a, i * 4096 ≤ a → a < (i + 1) * 4096 → r.mms ≤ a ∧ a < r.mms + r.mml

theorem MmRow.contains_iff {r : MmRow} {i : ℕ} :
    r.Contains i ↔ r.mms ≤ i * 4096 ∧ (i + 1) * 4096 ≤ r.mml + r.mms := by
  constructor
  · intro h
    have hfirst := h (i * 4096) (le_refl _) (by omega)
    have hlast := h ((i + 1) * 4096 - 1) (by omega) (by omega)
    omega
  · intro h a hlo hhi
    omega

/-- The first row, in table order, that contains page `i`. -/
def FirstRow (mm : List MmRow) (i : ℕ) (r : MmRow) : Prop :=
  ∃ pre post, mm = pre ++ r :: post ∧ (∀ x ∈ pre, ¬ x.Contains i) ∧ r.Contains i

namespace AllocTable

/-! ### The loops -/

/-- `at_set_perm`. -/
def atSetPerm (t : AllocTable) (i v : ℕ) : AllocTable :=
  { t with AT := update t.AT i ⟨v, 0⟩ }

/-- The second loop of `pmem_init` from page `i` on; `n` bounds the rounds. -/
def pmemLoop (mm : List MmRow) (nps : ℕ) : ℕ → AllocTable → ℕ → AllocTable
  | 0, t, _ => t
  | n + 1, t, i =>
    if i < nps then pmemLoop mm nps n (t.atSetPerm i (permOf mm i)) ((i + 1) % 2 ^ 32) else t

/-- `pmem_init`, on the static data as it finds it. -/
def pmemInitOn (t : AllocTable) (mm : List MmRow) : AllocTable :=
  pmemLoop mm (npsOf mm) (npsOf mm) { t with nps := npsOf mm } 0

/-- The counting loop of `container_init` from page `i` on, with the count so far. -/
def quotaLoop (t : AllocTable) : ℕ → ℕ → ℕ → ℕ
  | 0, _, realQuota => realQuota
  | n + 1, i, realQuota =>
    if i < t.nps then
      quotaLoop t n ((i + 1) % 2 ^ 32)
        (if t.atIsNorm i = true ∧ t.atIsAllocated i = false then (realQuota + 1) % 2 ^ 32
          else realQuota)
    else realQuota

/-- The quota `container_init` gives to the root. -/
def rootQuota (t : AllocTable) : ℕ := quotaLoop t t.nps 1 0

variable {mm : List MmRow} {t : AllocTable} {i : ℕ}

/-! ### The number of pages -/

/-- The first loop, from `n` on: no row is missed, and the result is the start or that of a row. -/
theorem npsOf_foldl (mm : List MmRow) (hrows : ∀ r ∈ mm, r.mms + r.mml ≤ 0xffffffff) (n : ℕ) :
    let m := mm.foldl (fun nps r =>
      let maxs := (r.mms + r.mml) % 2 ^ 32 / 4096 + 1
      if maxs > nps then maxs else nps) n
    n ≤ m ∧ (∀ r ∈ mm, (r.mms + r.mml) / 4096 + 1 ≤ m) ∧
      (m = n ∨ ∃ r ∈ mm, m = (r.mms + r.mml) / 4096 + 1) := by
  induction mm generalizing n with
  | nil => exact ⟨le_refl _, nofun, .inl rfl⟩
  | cons r rs ih =>
    have hr := hrows r List.mem_cons_self
    rw [List.foldl_cons]
    dsimp only
    rw [Nat.mod_eq_of_lt (by omega : r.mms + r.mml < 2 ^ 32)]
    obtain ⟨hstart, hall, hone⟩ := ih (fun x hx => hrows x (List.mem_cons_of_mem _ hx))
      (if (r.mms + r.mml) / 4096 + 1 > n then (r.mms + r.mml) / 4096 + 1 else n)
    refine ⟨le_trans ?_ hstart, fun x hx => ?_, ?_⟩
    · split <;> omega
    · rcases List.mem_cons.mp hx with rfl | hx
      · refine le_trans ?_ hstart
        split <;> omega
      · exact hall x hx
    · rcases hone with hone | ⟨x, hx, hone⟩
      · rw [hone]
        split
        · exact .inr ⟨r, List.mem_cons_self, rfl⟩
        · exact .inl rfl
      · exact .inr ⟨x, List.mem_cons_of_mem _ hx, hone⟩

/-! ### Pages and rows -/

/-- **The inner loop** answers for the first row that contains the page. -/
theorem rowScan_iff (hrows : ∀ r ∈ mm, r.mms + r.mml ≤ 0xffffffff) (hi : i < userHiPi) (b : Bool) :
    rowScan i b mm = (true, true) ↔ ∃ r, FirstRow mm i r ∧ r.isUsable = true := by
  unfold userHiPi at hi
  induction mm generalizing b with
  | nil =>
    refine ⟨fun h => absurd (congrArg Prod.fst h) Bool.false_ne_true, ?_⟩
    rintro ⟨r, ⟨pre, post, hmm, -⟩, -⟩
    exact absurd hmm.symm (by simp)
  | cons r rs ih =>
    have hr := hrows r List.mem_cons_self
    have htest : (r.mms ≤ i * 4096 % 2 ^ 32 ∧ (i + 1) * 4096 % 2 ^ 32 ≤ (r.mml + r.mms) % 2 ^ 32) ↔
        r.Contains i := by
      rw [MmRow.contains_iff, Nat.mod_eq_of_lt (by omega : i * 4096 < 2 ^ 32),
        Nat.mod_eq_of_lt (by omega : (i + 1) * 4096 < 2 ^ 32),
        Nat.mod_eq_of_lt (by omega : r.mml + r.mms < 2 ^ 32)]
    rw [rowScan]
    by_cases hc : r.Contains i
    · rw [if_pos (htest.mpr hc)]
      constructor
      · intro h
        exact ⟨r, ⟨[], rs, rfl, nofun, hc⟩, congrArg Prod.snd h⟩
      · rintro ⟨x, ⟨pre, post, hmm, hpre, -⟩, hx⟩
        cases pre with
        | nil =>
          obtain ⟨rfl, -⟩ := List.cons.inj hmm
          rw [hx]
        | cons y pre =>
          obtain ⟨rfl, -⟩ := List.cons.inj hmm
          exact absurd hc (hpre r List.mem_cons_self)
    · rw [if_neg (mt htest.mp hc), ih fun x hx => hrows x (List.mem_cons_of_mem _ hx)]
      refine exists_congr fun x => and_congr_left fun _ => ?_
      constructor
      · rintro ⟨pre, post, hmm, hpre, hx⟩
        refine ⟨r :: pre, post, by rw [hmm]; rfl, fun y hy => ?_, hx⟩
        rcases List.mem_cons.mp hy with rfl | hy
        · exact hc
        · exact hpre y hy
      · rintro ⟨pre, post, hmm, hpre, hx⟩
        cases pre with
        | nil =>
          obtain ⟨rfl, -⟩ := List.cons.inj hmm
          exact absurd hx hc
        | cons y pre =>
          obtain ⟨rfl, hrest⟩ := List.cons.inj hmm
          exact ⟨pre, post, hrest, fun z hz => hpre z (List.mem_cons_of_mem _ hz), hx⟩

/-! ### What the loops write -/

/-- **The second loop** writes the entries from `i` up to `NUM_PAGES`. -/
theorem pmemLoop_at {nps : ℕ} (hnps : nps ≤ 2 ^ 20) (n : ℕ) : ∀ {t : AllocTable} {i : ℕ},
    nps ≤ i + n → ∀ j, (pmemLoop mm nps n t i).AT j =
      if i ≤ j ∧ j < nps then ⟨permOf mm j, 0⟩ else t.AT j := by
  induction n with
  | zero =>
    intro t i hn j
    rw [if_neg (by omega)]
    rfl
  | succ n ih =>
    intro t i hn j
    rw [pmemLoop]
    by_cases hi : i < nps
    · rw [if_pos hi, Nat.mod_eq_of_lt (by omega : i + 1 < 2 ^ 32), ih (by omega)]
      by_cases hj : j = i
      · rw [hj, if_neg (by omega), if_pos ⟨le_refl i, hi⟩]
        exact update_self ..
      · have hold : (t.atSetPerm i (permOf mm i)).AT j = t.AT j := update_of_ne hj _ _
        rw [hold]
        by_cases hin : i ≤ j ∧ j < nps
        · rw [if_pos (by omega), if_pos hin]
        · rw [if_neg (by omega), if_neg hin]
    · rw [if_neg hi, if_neg (by omega)]

theorem pmemLoop_other {nps : ℕ} (n : ℕ) : ∀ (t : AllocTable) (i : ℕ),
    (pmemLoop mm nps n t i).nps = t.nps ∧
      (pmemLoop mm nps n t i).lastPallocIndex = t.lastPallocIndex := by
  induction n with
  | zero => exact fun _ _ => ⟨rfl, rfl⟩
  | succ n ih =>
    intro t i
    rw [pmemLoop]
    split
    · exact ih _ _
    · exact ⟨rfl, rfl⟩

theorem pmemInitOn_nps (t : AllocTable) (mm : List MmRow) : (pmemInitOn t mm).nps = npsOf mm :=
  (pmemLoop_other _ _ _).1

theorem pmemInitOn_at (t : AllocTable) (mm : List MmRow) (j : ℕ) :
    (pmemInitOn t mm).AT j = if j < npsOf mm then ⟨permOf mm j, 0⟩ else t.AT j := by
  unfold pmemInitOn
  rw [pmemLoop_at (npsOf_le mm) _ (Nat.le_add_left _ _)]
  by_cases hj : j < npsOf mm
  · rw [if_pos ⟨Nat.zero_le j, hj⟩, if_pos hj]
  · rw [if_neg (fun h => hj h.2), if_neg hj]

/-- The closed form, for the zero-initialised table. -/
theorem pmemInitOn_zero (nps : ℕ) (mm : List MmRow) :
    pmemInitOn ⟨nps, fun _ => ⟨0, 0⟩, 262144⟩ mm = pmemInit mm := by
  have hext : ∀ {t t' : AllocTable}, t.nps = t'.nps → t.AT = t'.AT →
      t.lastPallocIndex = t'.lastPallocIndex → t = t' := by
    rintro ⟨⟩ ⟨⟩ rfl rfl rfl
    rfl
  have hat : (pmemInitOn ⟨nps, fun _ => ⟨0, 0⟩, 262144⟩ mm).AT = (pmemInit mm).AT :=
    funext fun j => pmemInitOn_at _ mm j
  exact hext (pmemInitOn_nps _ mm) hat (pmemLoop_other _ _ _).2

/-- **The counting loop** counts the free pages from `i` on. -/
theorem quotaLoop_eq (hnps : t.nps ≤ 2 ^ 20) (n : ℕ) : ∀ {i q : ℕ}, t.nps ≤ i + n → q ≤ i →
    quotaLoop t n i q = q + ((Ico i t.nps).filter fun j =>
      t.atIsNorm j = true ∧ t.atIsAllocated j = false).card := by
  induction n with
  | zero =>
    intro i q hn _
    rw [Ico_eq_empty (by omega), filter_empty, card_empty]
    rfl
  | succ n ih =>
    intro i q hn hq
    rw [quotaLoop]
    by_cases hi : i < t.nps
    · rw [if_pos hi, Nat.mod_eq_of_lt (by omega : i + 1 < 2 ^ 32),
        ← insert_Ico_add_one_left_eq_Ico hi, filter_insert]
      have hnot : i ∉ (Ico (i + 1) t.nps).filter fun j =>
          t.atIsNorm j = true ∧ t.atIsAllocated j = false := by
        intro hm
        have := (mem_Ico.mp (mem_filter.mp hm).1).1
        omega
      by_cases hf : t.atIsNorm i = true ∧ t.atIsAllocated i = false
      · rw [if_pos hf, if_pos hf, Nat.mod_eq_of_lt (by omega : q + 1 < 2 ^ 32),
          ih (by omega) (by omega), card_insert_of_notMem hnot]
        omega
      · rw [if_neg hf, if_neg hf, ih (by omega) (by omega)]
    · rw [if_neg hi, Ico_eq_empty (by omega), filter_empty, card_empty]
      rfl

/-- The root container of the boot state has the quota of the two loops. -/
theorem containerInit_quota (nps : ℕ) (mm : List MmRow) (beyond : ℕ → SContainer) :
    ((Pmm.containerInit mm beyond).CONTAINER 0).quota =
      rootQuota (pmemInitOn ⟨nps, fun _ => ⟨0, 0⟩, 262144⟩ mm) := by
  show Pmm.realQuota (pmemInit mm) = _
  rw [pmemInitOn_zero]
  unfold rootQuota Pmm.realQuota
  rw [quotaLoop_eq (npsOf_le mm) _ (by omega) (Nat.zero_le _), Nat.count_eq_card_filter_range,
    Nat.zero_add]
  congr 1
  ext j
  simp only [mem_filter, mem_Ico, mem_range]
  tauto

/-! ### The classification -/

/-- What `pmem_init` leaves of a table `t`. -/
structure Classified (mm : List MmRow) (t t' : AllocTable) : Prop where
  nps_le : t'.nps ≤ 2 ^ 20
  rows : ∀ r ∈ mm, (r.mms + r.mml) / 4096 < t'.nps
  last : t'.nps = 0 ∨ ∃ r ∈ mm, t'.nps = (r.mms + r.mml) / 4096 + 1
  outside : ∀ i, t'.nps ≤ i → t'.AT i = t.AT i
  norm : ∀ i < t'.nps, t'.atIsNorm i = true ↔
    (userLoPi ≤ i ∧ i < userHiPi) ∧ ∃ r, FirstRow mm i r ∧ r.isUsable = true
  unallocated : ∀ i < t'.nps, t'.atIsAllocated i = false

/-- **Every page is classified by its first containing row**, whatever the table was before, and
the root quota is the number of normal pages from page `1` on. -/
theorem pmemInit_classifies (t : AllocTable) (hrows : ∀ r ∈ mm, r.mms + r.mml ≤ 0xffffffff) :
    Classified mm t (pmemInitOn t mm) ∧
    rootQuota (pmemInitOn t mm) =
      ((Ico 1 (pmemInitOn t mm).nps).filter fun i => (pmemInitOn t mm).atIsNorm i = true).card := by
  have hle := npsOf_le mm
  obtain ⟨-, hall, hone⟩ := npsOf_foldl mm hrows 0
  have hun : ∀ i < npsOf mm, (pmemInitOn t mm).atIsAllocated i = false := fun i hi => by
    rw [← Bool.not_eq_true, atIsAllocated_iff, not_not, pmemInitOn_at, if_pos hi]
  refine ⟨⟨?_, fun r hr => ?_, ?_, fun i hi => ?_, fun i hi => ?_, ?_⟩, ?_⟩
  · rw [pmemInitOn_nps]
    exact hle
  · rw [pmemInitOn_nps]
    exact hall r hr
  · rw [pmemInitOn_nps]
    exact hone
  · rw [pmemInitOn_nps] at hi
    rw [pmemInitOn_at, if_neg (by omega)]
  · rw [pmemInitOn_nps] at hi
    rw [atIsNorm_iff, pmemInitOn_at, if_pos hi]
    dsimp only
    unfold permOf
    by_cases hu : i < userLoPi ∨ userHiPi ≤ i
    · rw [if_pos hu]
      exact ⟨fun h => absurd h (by decide), fun h => by omega⟩
    · rw [if_neg hu]
      have huser : userLoPi ≤ i ∧ i < userHiPi := by omega
      rw [← rowScan_iff hrows huser.2 false]
      by_cases hscan : rowScan i false mm = (true, true)
      · rw [if_pos hscan]
        exact ⟨fun _ => ⟨huser, hscan⟩, fun _ => le_refl 2⟩
      · rw [if_neg hscan]
        exact ⟨fun h => absurd h (by decide), fun h => absurd h.2 hscan⟩
  · rw [pmemInitOn_nps]
    exact hun
  · unfold rootQuota
    rw [quotaLoop_eq (by rw [pmemInitOn_nps]; exact hle) _ (by omega) (Nat.zero_le _), Nat.zero_add]
    congr 1
    refine filter_congr fun i hi => and_iff_left (hun i ?_)
    rw [← pmemInitOn_nps t mm]
    exact (mem_Ico.mp hi).2

/-- A reserved row before a usable one that contains the same page. -/
theorem pmemInit_classifies_twoRows :
    ∃ mm : List MmRow, (∀ r ∈ mm, r.mms + r.mml ≤ 0xffffffff) ∧
      Classified mm (pmemInit []) (pmemInitOn (pmemInit []) mm) ∧
      (pmemInitOn (pmemInit []) mm).nps = 262147 ∧
      rootQuota (pmemInitOn (pmemInit []) mm) = ((Ico 1 262147).filter fun i =>
        (pmemInitOn (pmemInit []) mm).atIsNorm i = true).card := by
  have hrows : ∀ r ∈ [(⟨0x40001000, 0x1000, false, by decide, by decide⟩ : MmRow),
      ⟨0x40000000, 0x2000, true, by decide, by decide⟩], r.mms + r.mml ≤ 0xffffffff := by decide
  obtain ⟨hclass, hquota⟩ := pmemInit_classifies (pmemInit []) hrows
  have hnps := pmemInitOn_nps (pmemInit []) [(⟨0x40001000, 0x1000, false, by decide, by decide⟩ : MmRow),
      ⟨0x40000000, 0x2000, true, by decide, by decide⟩]
  have hsize : npsOf [(⟨0x40001000, 0x1000, false, by decide, by decide⟩ : MmRow),
      ⟨0x40000000, 0x2000, true, by decide, by decide⟩] = 262147 := by decide
  rw [hsize] at hnps
  rw [hnps] at hquota
  exact ⟨_, hrows, hclass, hnps, hquota⟩

end AllocTable

end Mcertikos
