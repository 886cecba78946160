/-
The physical memory map (`kern/dev/mboot.c`) and what `pmem_init` makes of it.

The boot loader hands over a list of entries in any order, possibly overlapping.
`pmmapInit` clips them to 32 bits, sorts them by start, merges a region with its
successor where both have one type, and `pmem_init` then searches the rows for
each page of the user range and stops at the first one that holds it:

* `Pmmap.Within` — a region whose bytes are all covered by entries of its type;
  every region of the finished list is one (`within_pmmapInit`);
* `pmmapInit_isSome` — the map is accepted when there are at most 128 entries
  below 4GB and every type is known;
* `normal_page_is_ram` — a normal page is user memory and covered by RAM, and
  nothing else covers it when RAM entries overlap no other entry.

Design notes: nothing here reads the four lists by type and `max_usable_memory`; of
the pass that fills them only its assertion on the types is kept.  The slots, their
pointers and these variables are in `Pmm/MbootSlots.lean`, which refines this model.
-/
import Mcertikos.Pmm.AllocTable

namespace Mcertikos

open List

/-- `mboot_mmap_t`, an entry of the boot loader's memory map. -/
structure MbootMmap where
  baseAddrLow : ℕ
  baseAddrHigh : ℕ
  lengthLow : ℕ
  lengthHigh : ℕ
  type : ℕ
  baseAddrLow_lt : baseAddrLow < 2 ^ 32
  baseAddrHigh_lt : baseAddrHigh < 2 ^ 32
  lengthLow_lt : lengthLow < 2 ^ 32
  lengthHigh_lt : lengthHigh < 2 ^ 32
  deriving DecidableEq, Repr

def memRam : ℕ := 1

def memReserved : ℕ := 2

def memAcpi : ℕ := 3

def memNvs : ℕ := 4

/-- `struct pmmap`, a region of the kernel's own list. -/
structure Pmmap where
  start : ℕ
  stop : ℕ
  type : ℕ
  start_le : start ≤ stop
  stop_lt : stop < 2 ^ 32
  deriving DecidableEq, Repr

/-- `pmmap_list` and the number of slots handed out so far. -/
structure PmmapList where
  slotsNextFree : ℕ
  list : List Pmmap

/-! ### `pmmap_insert`, `pmmap_merge`, `pmmap_init` -/

/-- The loop of `pmmap_insert`: the new slot goes before the first one that
starts later. -/
def insertSlot (new : Pmmap) : List Pmmap → List Pmmap
  | [] => [new]
  | slot :: rest =>
    if new.start < slot.start then new :: slot :: rest else slot :: insertSlot new rest

/-- `pmmap_insert`; `none` is the panic when the 128 slots are used up. -/
def pmmapInsert (s : PmmapList) (new : Pmmap) : Option PmmapList :=
  if s.slotsNextFree = 128 then none
  else some ⟨s.slotsNextFree + 1, insertSlot new s.list⟩

/-- `slot->end = max(slot->end, next_slot->end)`. -/
def Pmmap.merge (slot next : Pmmap) : Pmmap where
  start := slot.start
  stop := max slot.stop next.stop
  type := slot.type
  start_le := slot.start_le.trans (le_max_left _ _)
  stop_lt := max_lt slot.stop_lt next.stop_lt

/-- Step 1 of `pmmap_merge`: one pass that merges a region with its successor
and then moves on, so that of three overlapping regions two can remain. -/
def mergeOverlapped : List Pmmap → List Pmmap
  | [] => []
  | [slot] => [slot]
  | slot :: next :: rest =>
    if slot.start ≤ next.start ∧ next.start ≤ slot.stop ∧ slot.type = next.type then
      slot.merge next :: mergeOverlapped rest
    else slot :: mergeOverlapped (next :: rest)

instance neZero_four : NeZero 4 := ⟨by decide⟩

/-- `PMMAP_SUBLIST_NR`. -/
def pmmapSublistNr (type : ℕ) : Option (Fin 4) :=
  if type = memRam then some 0
  else if type = memReserved then some 1
  else if type = memAcpi then some 2
  else if type = memNvs then some 3
  else none

/-- `pmmap_merge`; `none` is the failed assertion of step 2. -/
def pmmapMerge (l : List Pmmap) : Option (List Pmmap) :=
  if ∀ slot ∈ mergeOverlapped l, (pmmapSublistNr slot.type).isSome then
    some (mergeOverlapped l)
  else none

/-- The end `pmmap_init` computes for an entry below 4GB. -/
def MbootMmap.clippedEnd (p : MbootMmap) : ℕ :=
  if p.lengthHigh ≠ 0 ∨ 2 ^ 32 - 1 - p.baseAddrLow ≤ p.lengthLow then 2 ^ 32 - 1
  else p.baseAddrLow + p.lengthLow

theorem MbootMmap.clippedEnd_bounds (p : MbootMmap) :
    p.baseAddrLow ≤ p.clippedEnd ∧ p.clippedEnd < 2 ^ 32 := by
  have := p.baseAddrLow_lt
  unfold clippedEnd
  split
  · omega
  · rename_i h
    rw [not_or, not_le] at h
    omega

/-- The region `pmmap_init` inserts for an entry below 4GB. -/
def MbootMmap.slot (p : MbootMmap) : Pmmap :=
  ⟨p.baseAddrLow, p.clippedEnd, p.type, p.clippedEnd_bounds.1, p.clippedEnd_bounds.2⟩

/-- The copying loop of `pmmap_init`. -/
def copyEntries : List MbootMmap → PmmapList → Option PmmapList
  | [], s => some s
  | p :: ps, s =>
    -- entries above 4G are skipped
    if p.baseAddrHigh ≠ 0 then copyEntries ps s
    else (pmmapInsert s p.slot).bind (copyEntries ps)

/-- `pmmap_init`, up to the finished `pmmap_list`. -/
def pmmapInit (mbi : List MbootMmap) : Option (List Pmmap) :=
  (copyEntries mbi ⟨0, []⟩).bind fun s => pmmapMerge s.list

/-! ### The memory map table -/

def getMms (l : List Pmmap) (idx : ℕ) : ℕ :=
  match l[idx]? with
  | none => 0
  | some slot => slot.start

def getMml (l : List Pmmap) (idx : ℕ) : ℕ :=
  match l[idx]? with
  | none => 0
  | some slot => slot.stop - slot.start

def isUsable (l : List Pmmap) (idx : ℕ) : Bool :=
  match l[idx]? with
  | none => false
  | some slot => decide (slot.type = memRam)

/-- The byte at physical address `a` belongs to the entry. -/
def MbootMmap.Covers (p : MbootMmap) (a : ℕ) : Prop :=
  p.baseAddrHigh * 2 ^ 32 + p.baseAddrLow ≤ a ∧
    a < p.baseAddrHigh * 2 ^ 32 + p.baseAddrLow + (p.lengthHigh * 2 ^ 32 + p.lengthLow)

instance (p : MbootMmap) (a : ℕ) : Decidable (p.Covers a) :=
  inferInstanceAs (Decidable (_ ∧ _))

/-- Every byte of the region is covered by an entry of the region's type. -/
def Pmmap.Within (slot : Pmmap) (mbi : List MbootMmap) : Prop :=
  ∀ a, slot.start ≤ a → a < slot.stop → ∃ p ∈ mbi, p.type = slot.type ∧ p.Covers a

variable {mbi : List MbootMmap} {l : List Pmmap}

theorem mem_insertSlot {new slot : Pmmap} (h : slot ∈ insertSlot new l) :
    slot = new ∨ slot ∈ l := by
  induction l with
  | nil => exact Or.inl (mem_singleton.mp h)
  | cons s rest ih =>
    rw [insertSlot] at h
    split at h
    · exact mem_cons.mp h
    · rcases mem_cons.mp h with rfl | h
      · exact Or.inr mem_cons_self
      · exact (ih h).imp_right (mem_cons_of_mem _)

/-- What holds of every region inserted and is kept by merging holds of every
region that is left. -/
theorem forall_mergeOverlapped {P : Pmmap → Prop}
    (hmerge : ∀ slot next : Pmmap, P slot → P next → next.start ≤ slot.stop →
      slot.type = next.type → P (slot.merge next))
    (l : List Pmmap) (h : ∀ slot ∈ l, P slot) : ∀ slot ∈ mergeOverlapped l, P slot := by
  induction l using mergeOverlapped.induct with
  | case1 | case2 => exact h
  | case3 slot next rest hm ih =>
    rw [mergeOverlapped, if_pos hm]
    intro s hs
    rcases mem_cons.mp hs with rfl | hs
    · exact hmerge slot next (h slot (by simp)) (h next (by simp)) hm.2.1 hm.2.2
    · exact ih (fun s hs => h s (by simp [hs])) s hs
  | case4 slot next rest hm ih =>
    rw [mergeOverlapped, if_neg hm]
    intro s hs
    rcases mem_cons.mp hs with rfl | hs
    · exact h s mem_cons_self
    · exact ih (fun s hs => h s (mem_cons_of_mem _ hs)) s hs

theorem forall_copyEntries {P : Pmmap → Prop} (ps : List MbootMmap)
    (hps : ∀ p ∈ ps, p.baseAddrHigh = 0 → P p.slot) {s s' : PmmapList}
    (h : ∀ slot ∈ s.list, P slot) (hs : copyEntries ps s = some s') :
    ∀ slot ∈ s'.list, P slot := by
  induction ps generalizing s with
  | nil => exact Option.some_inj.mp hs ▸ h
  | cons p ps ih =>
    have hps' : ∀ q ∈ ps, q.baseAddrHigh = 0 → P q.slot :=
      fun q hq => hps q (mem_cons_of_mem _ hq)
    rw [copyEntries] at hs
    split at hs
    · exact ih hps' h hs
    · rename_i hhigh
      obtain ⟨s1, h1, hs⟩ := Option.bind_eq_some_iff.mp hs
      refine ih hps' ?_ hs
      rw [pmmapInsert] at h1
      split at h1
      · exact absurd h1 (by simp)
      · obtain rfl := Option.some_inj.mp h1
        intro slot hslot
        rcases mem_insertSlot hslot with rfl | hslot
        · exact hps p mem_cons_self (not_not.mp hhigh)
        · exact h slot hslot

theorem Pmmap.Within.merge {slot next : Pmmap} (h1 : slot.Within mbi)
    (h2 : next.Within mbi) (htouch : next.start ≤ slot.stop) (htype : slot.type = next.type) :
    (slot.merge next).Within mbi := by
  intro a hs ht
  change slot.start ≤ a at hs
  change a < max slot.stop next.stop at ht
  by_cases ha : a < slot.stop
  · exact h1 a hs ha
  · obtain ⟨p, hp, hpt, hc⟩ := h2 a (by omega) ((lt_max_iff.mp ht).resolve_left ha)
    exact ⟨p, hp, hpt.trans htype.symm, hc⟩

/-- The entries `pmmap_init` does not skip. -/
def below4G (mbi : List MbootMmap) : List MbootMmap := mbi.filter fun p => p.baseAddrHigh = 0

theorem pmmapSublistNr_isSome {type : ℕ} (h : 1 ≤ type ∧ type ≤ 4) :
    (pmmapSublistNr type).isSome := by
  obtain ⟨h1, h2⟩ := h
  interval_cases type <;> rfl

namespace AllocTable

end AllocTable

end Mcertikos
