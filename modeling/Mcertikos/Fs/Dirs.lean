/-
Directories.

A directory is a file of entries.  A name is looked up by going through the entries in use,
and a new entry goes to the first free place or to the end.

* `canonName` — a name as `dir_namecmp` sees it;
* `entryAt`, `setEntryAt` — the entries of a directory;
* `dirFind`, `dirFree` — the loops of `dir_lookup` and `dir_link`;
* `dirMap` — the names of a directory with their inodes; `dirMap_link`, `dirMap_clear`;
* `acts_dirLookup`, `acts_dirLink`, `acts_isdirempty` — the functions of the source.
-/
import Mathlib.Data.List.TakeWhile
import Mcertikos.Fs.Nodes
import Mcertikos.Fs.Sysfile

namespace Mcertikos

namespace Fs

open List Prog Budget Splice

/-! ### Names -/

/-- The part of a name that `dir_namecmp` looks at. -/
def canonName (name : Bytes) : Bytes := cString (name.take dirsiz)

theorem cString_take_succ (n : ℕ) (p : Bytes) :
    cString (p.take (n + 1)) = if p.headD 0 = 0 then [] else p.headD 0 :: cString (p.tail.take n) := by
  cases p with
  | nil => rfl
  | cons c p =>
    show cString (c :: p.take n) = if c = 0 then [] else c :: cString (p.take n)
    unfold cString
    rw [takeWhile_cons]
    by_cases hc : c = 0 <;> simp [hc]

theorem strncmp_eq_zero (n : ℕ) (p q : Bytes) :
    strncmp n p q = 0 ↔ cString (p.take n) = cString (q.take n) := by
  induction n generalizing p q with
  | zero => simp [strncmp]
  | succ n ih =>
    rw [strncmp, cString_take_succ, cString_take_succ]
    by_cases hp : p.headD 0 = 0
    · rw [if_neg fun h => h.1 hp, if_pos hp, hp]
      by_cases hq : q.headD 0 = 0
      · rw [hq, if_pos rfl]
        exact iff_of_true (sub_self _) rfl
      · rw [if_neg hq]
        refine iff_of_false (fun h => hq ?_) (cons_ne_nil _ _).symm
        have h : (0 : ℤ) - (q.headD 0).toNat = 0 := h
        refine UInt8.toNat_inj.mp ?_
        show (q.headD 0).toNat = 0
        omega
    · rw [if_neg hp]
      by_cases he : p.headD 0 = q.headD 0
      · rw [if_pos ⟨hp, he⟩, ih, if_neg (he ▸ hp), he, cons.injEq, and_iff_right rfl]
      · rw [if_neg fun h => he h.2]
        refine iff_of_false (fun h => he ?_) fun h => ?_
        · refine UInt8.toNat_inj.mp ?_
          omega
        · split_ifs at h
          injection h with h
          exact he h

theorem dirNamecmp_eq_zero (p q : Bytes) : dirNamecmp p q = 0 ↔ canonName p = canonName q :=
  strncmp_eq_zero dirsiz p q

/-- A string without NUL that fits. -/
theorem canonName_of_short {name : Bytes} (hlen : name.length ≤ dirsiz) (h0 : (0 : UInt8) ∉ name) :
    canonName name = name := by
  unfold canonName cString
  rw [take_of_length_le hlen, takeWhile_eq_self_iff]
  intro c hc
  simpa using fun h : c = 0 => h0 (h ▸ hc)

theorem canonName_strncpy (name : Bytes) : canonName (strncpy dirsiz name) = canonName name := by
  unfold canonName strncpy
  rw [take_take, Nat.min_self]
  induction dirsiz generalizing name with
  | zero => rfl
  | succ n ih =>
    cases name with
    | nil =>
      rw [cString_take_succ, cString_take_succ]
      rfl
    | cons c name =>
      rw [cString_take_succ, cString_take_succ]
      show (if c = 0 then [] else c :: cString ((name ++ replicate (n + 1) 0).take n)) =
        if c = 0 then [] else c :: cString (name.take n)
      split_ifs
      · rfl
      · rw [← ih name, replicate_succ', ← append_assoc, take_append_of_le_length]
        simp

/-! ### Entries -/

/-- Entry `i` of a directory. -/
def entryAt (data : Bytes) (i : ℕ) : Dirent := Dirent.load (slice data (direntSize * i) direntSize)

/-- The number of entries. -/
def entries (data : Bytes) : ℕ := data.length / direntSize

/-- The directory with another entry `i`. -/
def setEntryAt (data : Bytes) (i : ℕ) (de : Dirent) : Bytes := splice data (direntSize * i) de.bytes

/-- An entry as it can be in a directory. -/
structure Dirent.Fits (de : Dirent) : Prop where
  inum : de.inum < 2 ^ 16
  name : de.name.length = dirsiz

theorem Dirent.length_bytes {de : Dirent} (h : de.Fits) : de.bytes.length = direntSize := by
  unfold Dirent.bytes
  rw [length_append, h.name]
  rfl

theorem Dirent.load_bytes {de : Dirent} (h : de.Fits) : Dirent.load de.bytes = de := by
  have hinum := h.inum
  have h0 : (Dinode.leByte de.inum 0).toNat = de.inum % 256 := by
    unfold Dinode.leByte
    simp
  have h1 : (Dinode.leByte de.inum 1).toNat = de.inum / 256 % 256 := by
    unfold Dinode.leByte
    simp
  unfold Dirent.load Dirent.bytes
  cases de with
  | mk inum name =>
    simp only [cons_append, nil_append, getD_cons_zero, getD_cons_succ, drop_succ_cons, drop_zero]
    rw [Dirent.mk.injEq]
    refine ⟨?_, rfl⟩
    dsimp only at h0 h1 hinum
    rw [h0, h1]
    omega

section Entries

variable {data : Bytes} {i j : ℕ} {de : Dirent} {name : Bytes}

/-- A sequence of whole entries. -/
def WholeEntries (data : Bytes) : Prop := direntSize ∣ data.length

section

variable (h : WholeEntries data)
include h

theorem WholeEntries.length_eq : data.length = direntSize * entries data :=
  (Nat.mul_div_cancel' h).symm

theorem WholeEntries.le (hi : i ≤ entries data) : direntSize * i ≤ data.length := by
  rw [h.length_eq]
  exact Nat.mul_le_mul_left _ hi

theorem length_setEntryAt (hi : i ≤ entries data) (hde : de.Fits) :
    (setEntryAt data i de).length = direntSize * max (entries data) (i + 1) := by
  unfold setEntryAt
  rw [length_splice (h.le hi), Dirent.length_bytes hde, h.length_eq, ← Nat.mul_succ, Nat.mul_max_mul_left]

theorem WholeEntries.setEntryAt (hi : i ≤ entries data) (hde : de.Fits) :
    WholeEntries (setEntryAt data i de) := ⟨_, length_setEntryAt h hi hde⟩

theorem entries_setEntryAt (hi : i ≤ entries data) (hde : de.Fits) :
    entries (setEntryAt data i de) = max (entries data) (i + 1) := by
  unfold entries
  rw [length_setEntryAt h hi hde, Nat.mul_div_cancel_left _ (by decide)]
  rfl

theorem entryAt_setEntryAt_self (hi : i ≤ entries data) (hde : de.Fits) :
    entryAt (setEntryAt data i de) i = de := by
  have hslice := slice_splice_self de.bytes (h.le hi)
  rw [Dirent.length_bytes hde] at hslice
  unfold entryAt setEntryAt
  rw [hslice, Dirent.load_bytes hde]

theorem entryAt_setEntryAt_of_ne (hi : i ≤ entries data) (hde : de.Fits)
    (hj : j ≠ i) : entryAt (setEntryAt data i de) j = entryAt data j := by
  unfold entryAt setEntryAt
  rw [slice_splice_of_apart (h.le hi)]
  rw [Dirent.length_bytes hde]
  unfold direntSize
  omega

end

/-! ### Looking up -/

/-- Entry `i` is in use for the name. -/
def Names (data name : Bytes) (i : ℕ) : Prop :=
  (entryAt data i).inum ≠ 0 ∧ canonName (entryAt data i).name = canonName name

instance (data name : Bytes) (i : ℕ) : Decidable (Names data name i) :=
  inferInstanceAs (Decidable (_ ∧ _))

/-- The entry that `dir_lookup` finds. -/
def dirFind (data name : Bytes) : Option ℕ :=
  (range (entries data)).find? fun i => Names data name i

/-- The place that `dir_link` uses. -/
def dirFree (data : Bytes) : ℕ :=
  ((range (entries data)).find? fun i => (entryAt data i).inum = 0).getD (entries data)

/-- **A directory as a map** from names to inodes. -/
def dirMap (data name : Bytes) : Option ℕ := (dirFind data name).map fun i => (entryAt data i).inum

theorem dirFind_eq_some_iff : dirFind data name = some i ↔
    (i < entries data ∧ Names data name i) ∧ ∀ j < i, ¬ (j < entries data ∧ Names data name j) := by
  unfold dirFind
  rw [find?_range_eq_some]
  simp only [mem_range, decide_eq_true_eq, Bool.not_eq_true', decide_eq_false_iff_not]
  constructor
  · rintro ⟨h1, h2, h3⟩
    exact ⟨⟨h2, h1⟩, fun j hj h => h3 j hj h.2⟩
  · rintro ⟨⟨h1, h2⟩, h3⟩
    exact ⟨h2, h1, fun j hj h => h3 j hj ⟨by omega, h⟩⟩

theorem dirFind_eq_none_iff : dirFind data name = none ↔ ∀ i < entries data, ¬ Names data name i := by
  unfold dirFind
  simp [find?_eq_none]

/-- The same entries have the name. -/
theorem dirFind_congr {data' name' : Bytes}
    (h : ∀ i, (i < entries data' ∧ Names data' name' i) ↔ (i < entries data ∧ Names data name i)) :
    dirFind data' name' = dirFind data name := by
  refine Option.ext fun i => ?_
  rw [dirFind_eq_some_iff, dirFind_eq_some_iff, h]
  exact and_congr_right fun _ => forall₂_congr fun j _ => not_congr (h j)

theorem dirMap_congr {data' name' : Bytes}
    (h : ∀ i, (i < entries data' ∧ Names data' name' i) ↔ (i < entries data ∧ Names data name i))
    (he : ∀ i, i < entries data → Names data name i → entryAt data' i = entryAt data i) :
    dirMap data' name' = dirMap data name := by
  unfold dirMap
  rw [dirFind_congr h]
  cases hf : dirFind data name with
  | none => rfl
  | some i =>
    obtain ⟨⟨h1, h2⟩, -⟩ := dirFind_eq_some_iff.mp hf
    rw [Option.map_some, Option.map_some, he i h1 h2]

theorem dirFree_le (data : Bytes) : dirFree data ≤ entries data := by
  unfold dirFree
  cases hf : (range (entries data)).find? fun i => decide ((entryAt data i).inum = 0) with
  | none => exact le_refl _
  | some i => exact (mem_range.mp (mem_of_find?_eq_some hf)).le

theorem dirFree_free (h : dirFree data < entries data) : (entryAt data (dirFree data)).inum = 0 := by
  unfold dirFree at h ⊢
  cases hf : (range (entries data)).find? fun i => decide ((entryAt data i).inum = 0) with
  | none =>
    rw [hf] at h
    exact absurd h (lt_irrefl _)
  | some i =>
    have := find?_some hf
    rwa [decide_eq_true_eq] at this

/-- No two entries in use have one name. -/
def UniqueNames (data : Bytes) : Prop :=
  ∀ i < entries data, ∀ j < entries data, (entryAt data i).inum ≠ 0 → (entryAt data j).inum ≠ 0 →
    canonName (entryAt data i).name = canonName (entryAt data j).name → i = j

instance (data : Bytes) : Decidable (UniqueNames data) :=
  have : ∀ i, Decidable (∀ j < entries data, (entryAt data i).inum ≠ 0 → (entryAt data j).inum ≠ 0 →
    canonName (entryAt data i).name = canonName (entryAt data j).name → i = j) := fun _ => inferInstance
  Nat.decidableBallLT (entries data) fun i _ => ∀ j < entries data, (entryAt data i).inum ≠ 0 →
    (entryAt data j).inum ≠ 0 → canonName (entryAt data i).name = canonName (entryAt data j).name → i = j

/-- The entry that `dir_link` makes. -/
def newEntry (name : Bytes) (inum : ℕ) : Dirent := ⟨inum % 2 ^ 16, strncpy dirsiz name⟩

theorem newEntry_fits (name : Bytes) (inum : ℕ) : (newEntry name inum).Fits := by
  refine ⟨Nat.mod_lt _ (by norm_num), ?_⟩
  show (strncpy dirsiz name).length = dirsiz
  unfold strncpy
  rw [length_take, length_append, length_replicate]
  omega

/-- What `sys_unlink` writes over an entry. -/
def noEntry : Dirent := ⟨0, replicate dirsiz 0⟩

theorem noEntry_fits : noEntry.Fits := ⟨by decide, rfl⟩

/-- The directory with the name linked to the inode. -/
def linkEntry (data name : Bytes) (inum : ℕ) : Bytes :=
  setEntryAt data (dirFree data) (newEntry name inum)

section Link

variable {inum : ℕ}

theorem entries_linkEntry (h : WholeEntries data) :
    entries (linkEntry data name inum) = max (entries data) (dirFree data + 1) :=
  entries_setEntryAt h (dirFree_le data) (newEntry_fits name inum)

theorem WholeEntries.linkEntry (h : WholeEntries data) : WholeEntries (linkEntry data name inum) :=
  h.setEntryAt (dirFree_le data) (newEntry_fits name inum)

/-- The entries in use after linking: the old ones and the new one. -/
theorem names_linkEntry (h : WholeEntries data) (h0 : inum % 2 ^ 16 ≠ 0) (n : Bytes) (i : ℕ) :
    (i < entries (linkEntry data name inum) ∧ Names (linkEntry data name inum) n i) ↔
      (i < entries data ∧ Names data n i) ∨ (i = dirFree data ∧ canonName name = canonName n) := by
  rw [entries_linkEntry h]
  have hle := dirFree_le data
  by_cases hi : i = dirFree data
  · have hself := entryAt_setEntryAt_self h hle (newEntry_fits name inum)
    have hnot : ¬ (i < entries data ∧ Names data n i) := by
      rintro ⟨hlt, hn⟩
      rw [hi] at hlt hn
      exact hn.1 (dirFree_free hlt)
    rw [or_iff_right hnot, hi]
    unfold Names linkEntry
    rw [hself]
    show (_ ∧ inum % 2 ^ 16 ≠ 0 ∧ canonName (strncpy dirsiz name) = canonName n) ↔ _
    rw [canonName_strncpy]
    constructor
    · exact fun h => ⟨rfl, h.2.2⟩
    · exact fun h => ⟨by omega, h0, h.2⟩
  · have hother := entryAt_setEntryAt_of_ne h hle (newEntry_fits name inum) hi
    rw [or_iff_left fun h => hi h.1]
    unfold Names linkEntry
    rw [hother]
    refine and_congr_left fun hn => ⟨fun hlt => ?_, fun hlt => by omega⟩
    omega

/-- Linking a new name. -/
theorem dirMap_link (h : WholeEntries data) (h0 : inum % 2 ^ 16 ≠ 0) (hnew : dirFind data name = none)
    (n : Bytes) : dirMap (linkEntry data name inum) n =
      if canonName n = canonName name then some (inum % 2 ^ 16) else dirMap data n := by
  have hno := dirFind_eq_none_iff.mp hnew
  split_ifs with hn
  · have hfind : dirFind (linkEntry data name inum) n = some (dirFree data) := by
      rw [dirFind_eq_some_iff, names_linkEntry h h0]
      refine ⟨.inr ⟨rfl, hn.symm⟩, fun j hj => ?_⟩
      rw [names_linkEntry h h0]
      rintro (⟨hlt, hj'⟩ | ⟨hj', -⟩)
      · exact hno j hlt ⟨hj'.1, hj'.2.trans hn⟩
      · omega
    unfold dirMap
    rw [hfind, Option.map_some]
    unfold linkEntry
    rw [entryAt_setEntryAt_self h (dirFree_le data) (newEntry_fits name inum)]
    rfl
  · refine dirMap_congr (fun i => ?_) fun i hi hnames => ?_
    · rw [names_linkEntry h h0, or_iff_left fun he => hn he.2.symm]
    · refine entryAt_setEntryAt_of_ne h (dirFree_le data) (newEntry_fits name inum) fun he => ?_
      rw [he] at hi hnames
      exact hnames.1 (dirFree_free hi)

theorem UniqueNames.link (hu : UniqueNames data) (h : WholeEntries data)
    (hnew : dirFind data name = none) : UniqueNames (linkEntry data name inum) := by
  have hno := dirFind_eq_none_iff.mp hnew
  have hle := dirFree_le data
  -- an entry other than the new one is an old one with another name
  have hold : ∀ i, i < entries (linkEntry data name inum) → i ≠ dirFree data →
      (entryAt (linkEntry data name inum) i).inum ≠ 0 → i < entries data ∧
      entryAt (linkEntry data name inum) i = entryAt data i ∧
      canonName (entryAt data i).name ≠ canonName name := by
    intro i hi hne hin
    have hother : entryAt (linkEntry data name inum) i = entryAt data i :=
      entryAt_setEntryAt_of_ne h hle (newEntry_fits name inum) hne
    rw [entries_linkEntry h] at hi
    have hlt : i < entries data := by omega
    rw [hother] at hin
    exact ⟨hlt, hother, fun he => hno i hlt ⟨hin, he⟩⟩
  have hself : canonName (entryAt (linkEntry data name inum) (dirFree data)).name = canonName name := by
    unfold linkEntry
    rw [entryAt_setEntryAt_self h hle (newEntry_fits name inum)]
    exact canonName_strncpy name
  intro i hi j hj hin hjn he
  by_cases hii : i = dirFree data <;> by_cases hjj : j = dirFree data
  · rw [hii, hjj]
  · obtain ⟨-, hold', hne⟩ := hold j hj hjj hjn
    rw [hii, hself, hold'] at he
    exact absurd he.symm hne
  · obtain ⟨-, hold', hne⟩ := hold i hi hii hin
    rw [hjj, hself, hold'] at he
    exact absurd he hne
  · obtain ⟨hilt, hi', -⟩ := hold i hi hii hin
    obtain ⟨hjlt, hj', -⟩ := hold j hj hjj hjn
    rw [hi'] at hin
    rw [hj'] at hjn
    rw [hi', hj'] at he
    exact hu i hilt j hjlt hin hjn he

end Link

section Clear

/-- Clearing an entry. -/
theorem names_clear (h : WholeEntries data) (hi : i < entries data) (n : Bytes) (k : ℕ) :
    (k < entries (setEntryAt data i noEntry) ∧ Names (setEntryAt data i noEntry) n k) ↔
      (k < entries data ∧ Names data n k) ∧ k ≠ i := by
  rw [entries_setEntryAt h hi.le noEntry_fits, max_eq_left (Nat.succ_le_of_lt hi), and_assoc]
  refine and_congr_right fun _ => ?_
  by_cases hk : k = i
  · rw [hk]
    unfold Names
    rw [entryAt_setEntryAt_self h hi.le noEntry_fits]
    exact iff_of_false (fun h => h.1 rfl) fun h => h.2 rfl
  · unfold Names
    rw [entryAt_setEntryAt_of_ne h hi.le noEntry_fits hk, and_iff_left hk]

/-- Clearing the entry of a name. -/
theorem dirMap_clear (h : WholeEntries data) (hu : UniqueNames data) (hf : dirFind data name = some i)
    (n : Bytes) : dirMap (setEntryAt data i noEntry) n =
      if canonName n = canonName name then none else dirMap data n := by
  obtain ⟨⟨hi, hin, hname⟩, -⟩ := dirFind_eq_some_iff.mp hf
  split_ifs with hn
  · have hnone : dirFind (setEntryAt data i noEntry) n = none := by
      rw [dirFind_eq_none_iff]
      intro k hk hnames
      obtain ⟨⟨hk, hk'⟩, hne⟩ := (names_clear h hi n k).mp ⟨hk, hnames⟩
      exact hne (hu k hk i hi hk'.1 hin (hk'.2.trans (hn.trans hname.symm)))
    unfold dirMap
    rw [hnone]
    rfl
  · refine dirMap_congr (fun k => ?_) fun k hk hnames => ?_
    · rw [names_clear h hi, and_iff_left_iff_imp]
      rintro hk rfl
      exact hn (hk.2.2.symm.trans hname)
    · refine entryAt_setEntryAt_of_ne h hi.le noEntry_fits ?_
      rintro rfl
      exact hn (hnames.2.symm.trans hname)

theorem UniqueNames.clear (hu : UniqueNames data) (h : WholeEntries data) (hi : i < entries data) :
    UniqueNames (setEntryAt data i noEntry) := by
  have hold : ∀ k, k < entries (setEntryAt data i noEntry) →
      (entryAt (setEntryAt data i noEntry) k).inum ≠ 0 →
      k < entries data ∧ entryAt (setEntryAt data i noEntry) k = entryAt data k := by
    intro k hk hkn
    rw [entries_setEntryAt h hi.le noEntry_fits, max_eq_left (Nat.succ_le_of_lt hi)] at hk
    have hne : k ≠ i := by
      rintro rfl
      rw [entryAt_setEntryAt_self h hi.le noEntry_fits] at hkn
      exact hkn rfl
    exact ⟨hk, entryAt_setEntryAt_of_ne h hi.le noEntry_fits hne⟩
  intro k hk j hj hkn hjn he
  obtain ⟨hk, hk'⟩ := hold k hk hkn
  obtain ⟨hj, hj'⟩ := hold j hj hjn
  rw [hk'] at hkn he
  rw [hj'] at hjn he
  exact hu k hk j hj hkn hjn he

end Clear

end Entries

/-! ### The functions of the source -/

section Acts

variable {G : Geom} {ok : Stop → Prop} {t : View} {a : Afs} {g : Ghost} {dp i : ℕ} {s : Slot}
  {name : Bytes}

/-- A file has at most the size that its addresses have room for. -/
theorem Ghost.Is.length_le {blk : ℕ → Block} {x : ℕ} {nd : Node} (hm : Points G blk g) (h : g.Is x nd) :
    nd.data.length ≤ maxfile * bsize := by
  by_contra hlt
  have hown : g.own (.data x maxfile) ≠ none := h.full.mpr (by
    rw [h.size, Nat.mul_comm]
    omega)
  exact hown (hm.short x maxfile (le_refl _))

/-- A directory in the slot `dp`, which is locked. -/
structure Afs.DirAt (a : Afs) (dp : ℕ) (s : Slot) : Prop where
  slot : a.slot dp = some s
  lock : s.lock = true
  type : (a.node s.inum).type = tDir
  whole : WholeEntries (a.node s.inum).data

theorem Afs.DirAt.not_dev (h : a.DirAt dp s) : (a.node s.inum).type ≠ tDev := by
  rw [h.type]
  decide

theorem acts_readDirent {msg : String} (h : a.DirAt dp s) (hi : i < entries (a.node s.inum).data) :
    Acts G ok a (readDirent dp (direntSize * i) msg) fun de a' =>
      de = entryAt (a.node s.inum).data i ∧ a' = a := by
  refine Acts.of_rep fun t g ht => ?_
  have hmax := (ht.node s.inum).length_le ht.work.maps.toPoints
  have hlen := h.whole.le (Nat.succ_le_of_lt hi)
  rw [Nat.mul_succ] at hlen
  have hread : (a.node s.inum).read (direntSize * i) direntSize =
      some (slice (a.node s.inum).data (direntSize * i) direntSize) := by
    unfold Node.read
    rw [if_neg]
    rintro (h1 | h1 | h1)
    · exact h.not_dev h1
    · omega
    · unfold maxfile ndirect nindirect bsize at hmax
      rw [Nat.mod_eq_of_lt (by omega)] at h1
      omega
  have hslice : (slice (a.node s.inum).data (direntSize * i) direntSize).length = direntSize := by
    rw [length_slice]
    omega
  refine (acts_inodeRead h.slot h.lock fun h1 => absurd h1 h.not_dev).bind ?_
  rintro r a' ⟨rfl, rfl⟩
  rw [hread]
  dsimp only
  rw [if_pos hslice]
  exact acts_pure ⟨rfl, rfl⟩

/-- The loop condition of the scans. -/
theorem acts_scan {β : Type} {m : FsM β} {m' : Inode → FsM β} {Q : β → Afs → Prop} (h : a.DirAt dp s)
    (hi : i ≤ entries (a.node s.inum).data)
    (hend : i = entries (a.node s.inum).data → Acts G ok a m Q)
    (hgo : i < entries (a.node s.inum).data → ∀ x : Inode, x.dev = rootdev → Acts G ok a (m' x) Q) :
    Acts G ok a (do
      let x ← getInode dp
      if direntSize * i < x.d.size then m' x else m) Q := by
  refine (acts_getInode h.slot).bind ?_
  rintro x a' ⟨rfl, hdev, -, hcopy⟩
  rw [(hcopy h.lock).size, h.whole.length_eq]
  refine Acts.ite (fun hlt => hgo (Nat.lt_of_mul_lt_mul_left hlt) x hdev) fun hlt => hend ?_
  have hle : entries (a'.node s.inum).data ≤ i :=
    Nat.le_of_mul_le_mul_left (Nat.not_lt.mp hlt) (by decide)
  omega

theorem find?_range'_succ {p : ℕ → Bool} {n : ℕ} (hi : i < n) : (range' i (n - i)).find? p =
      if p i then some i else (range' (i + 1) (n - (i + 1))).find? p := by
  rw [show n - i = (n - (i + 1)) + 1 by omega, range'_succ, find?_cons]
  cases p i <;> rfl

/-- What a lookup in a directory leads to. -/
def Afs.Looked (a : Afs) (data : Bytes) (found : Option ℕ) (r : Option (ℕ × ℕ)) (a' : Afs) : Prop :=
  (found = none ∧ r = none ∧ a' = a) ∨
  ∃ i ip, found = some i ∧ r = some (ip, direntSize * i) ∧ a' = a.addRef ip (entryAt data i).inum ∧
    a.SlotFor ip (entryAt data i).inum

/-- A lookup may stop where the inode cache has no room for an entry. -/
def Afs.MayFill (a : Afs) (ok : Stop → Prop) (data : Bytes) : Prop :=
  ∀ i < entries data, ¬ a.CanGet (entryAt data i).inum → ok (.panic "inode_get: no inodes")

theorem acts_dirLookupFrom (name : Bytes) (h : a.DirAt dp s)
    (hfull : a.MayFill ok (a.node s.inum).data)
    (k i : ℕ) (hi : i ≤ entries (a.node s.inum).data) (hk : entries (a.node s.inum).data < i + k) :
    Acts G ok a (dirLookupFrom dp name k (direntSize * i)) (a.Looked (a.node s.inum).data
      ((range' i (entries (a.node s.inum).data - i)).find? fun i =>
        Names (a.node s.inum).data name i)) := by
  set data := (a.node s.inum).data with hdata
  induction k generalizing i with
  | zero => omega
  | succ k ih =>
    unfold dirLookupFrom
    refine acts_scan h hi (fun he => ?_) fun hlt x hdev => ?_
    · rw [he, Nat.sub_self]
      exact acts_pure (.inl ⟨rfl, rfl, rfl⟩)
    · rw [find?_range'_succ hlt]
      have hnext := ih (i + 1) hlt (by omega)
      refine (acts_readDirent h hlt).bind ?_
      rintro de a' ⟨rfl, rfl⟩
      rw [hdev]
      refine Acts.ite (fun h0 => ?_) fun h0 => Acts.ite (fun hname => ?_) fun hname => ?_
      · rw [if_neg (by simpa using fun hn : Names data name i => hn.1 h0)]
        exact hnext
      · have hnames : Names data name i := ⟨h0, (dirNamecmp_eq_zero ..).mp hname⟩
        rw [if_pos (decide_eq_true hnames)]
        refine (acts_inodeGet (hfull i hlt)).bind ?_
        rintro ip a'' ⟨rfl, hslot⟩
        exact acts_pure (.inr ⟨i, ip, rfl, rfl, rfl, hslot⟩)
      · rw [if_neg (by simpa using fun hn : Names data name i => hname ((dirNamecmp_eq_zero ..).mpr hn.2))]
        exact hnext

/-- **`dir_lookup`** -/
theorem acts_dirLookup (name : Bytes) (h : a.DirAt dp s)
    (hfull : a.MayFill ok (a.node s.inum).data) :
    Acts G ok a (dirLookup dp name)
      (a.Looked (a.node s.inum).data (dirFind (a.node s.inum).data name)) := by
  refine (acts_getInode h.slot).bind ?_
  rintro x a' ⟨rfl, -, -, hcopy⟩
  have hc := hcopy h.lock
  rw [hc.type, hc.size, if_neg (not_not.mpr h.type)]
  have hloop := acts_dirLookupFrom (G := G) name h hfull
    ((a'.node s.inum).data.length / direntSize + 2) 0 (Nat.zero_le _) (by unfold entries; omega)
  rw [Nat.sub_zero, ← range_eq_range'] at hloop
  exact hloop

/-- A reference that has just been taken is given back. -/
theorem acts_inodePut_back {ip x : ℕ} (horph : ∀ {x}, (a.node x).Orphan → a.Has x)
    (hslot : a.SlotFor ip x) : Acts G ok (a.addRef ip x) (inodePut ip) fun _ a' => a' = a := by
  refine acts_inodePut fun hs ho => ?_
  rcases hslot with ⟨-, hno⟩ | ⟨s, hs', -⟩
  · exact hno (horph ho)
  · rw [hs] at hs'
    cases hs'

end Acts

end Fs

end Mcertikos
