/-
The linked slots of the physical memory map (`kern/dev/mboot.c`).

`Pmm/Mboot.lean` keeps `pmmap_list` as a list of regions.  Here it is what the code
has: 128 slots, each with a `next` and a `type_next` pointer, five head variables, and
the macros of `kern/lib/queue.h` that rewrite them:

* `PmmapSlots.pmmapInsert`, `mergeLoop`, `threadLoop` — the three loops over the slots,
  and `PmmapSlots.pmmapInit`, which runs them on a boot loader's map;
* `pmmapInit_refines` — the slots reached from `pmmap_list` hold the regions of the
  list model, and each of the four sublists passes through those of its type;
* `pmmapInit_normalises` — nothing is lost: the list is sorted, covers for each type
  what the entries of that type cover, and the table functions read it off;
* `merged_iff` — what the one pass of `pmmap_merge` leaves unmerged, and when
  `max_usable_memory` is the largest end.

Design notes: a `SLIST_FOREACH` gets one round more than there are slots; `none` is a
panic, a failed assertion or a walk that has not ended by then.
-/
import Mcertikos.Pmm.Mboot
import Mcertikos.Lib.Chain

namespace Mcertikos

open List Function
open Chain (Leads)

/-- An element of `pmmap_slots`, as a pointer. -/
abbrev PmmapSlot := Fin 128

/-- The static variables of the file. -/
structure PmmapSlots where
  /-- `start`, `end` and `type` of each slot. -/
  slots : PmmapSlot → Pmmap
  next : PmmapSlot → Option PmmapSlot
  typeNext : PmmapSlot → Option PmmapSlot
  slotsNextFree : ℕ
  slotsNextFree_le : slotsNextFree ≤ 128
  list : Option PmmapSlot
  sublist : Fin 4 → Option PmmapSlot
  maxUsableMemory : ℕ
  memNpages : ℕ
  nentries : ℕ

namespace PmmapSlots

/-- Enough for a walk through all slots and the null pointer behind them. -/
def rounds : ℕ := 129

/-! ### `pmmap_insert` -/

/-- `pmmap_alloc_slot`. -/
def pmmapAllocSlot (s : PmmapSlots) : Option (PmmapSlot × PmmapSlots) :=
  if h : s.slotsNextFree = 128 then none
  else
    have hlt : s.slotsNextFree < 128 := lt_of_le_of_ne s.slotsNextFree_le h
    some (⟨s.slotsNextFree, hlt⟩,
      { s with slotsNextFree := s.slotsNextFree + 1, slotsNextFree_le := hlt })

/-- The search of `pmmap_insert`: the last slot that does not start later. -/
def lastSlot (s : PmmapSlots) (start : ℕ) :
    ℕ → Option PmmapSlot → Option PmmapSlot → Option (Option PmmapSlot)
  | 0, _, _ => none
  | _ + 1, none, last => some last
  | n + 1, some slot, last =>
    if start < (s.slots slot).start then some last
    else s.lastSlot start n (s.next slot) (some slot)

def setSlot (s : PmmapSlots) (slot : PmmapSlot) (p : Pmmap) : PmmapSlots :=
  { s with slots := update s.slots slot p }

/-- `SLIST_INSERT_HEAD(&pmmap_list, slot, next)`. -/
def insertHead (s : PmmapSlots) (slot : PmmapSlot) : PmmapSlots :=
  { s with next := update s.next slot s.list, list := some slot }

/-- `SLIST_INSERT_AFTER(last, slot, next)`. -/
def insertAfter (s : PmmapSlots) (last slot : PmmapSlot) : PmmapSlots :=
  { s with next := Chain.insertAfter s.next last slot }

def pmmapInsert (s : PmmapSlots) (new : Pmmap) : Option PmmapSlots :=
  s.pmmapAllocSlot.bind fun (freeSlot, s) =>
    let s := s.setSlot freeSlot new
    (s.lastSlot new.start rounds s.list none).map fun
      | none => s.insertHead freeSlot
      | some last => s.insertAfter last freeSlot

/-! ### `pmmap_merge` -/

/-- `slot->end = max(slot->end, next_slot->end); SLIST_REMOVE_AFTER(slot, next)`. -/
def mergeNext (s : PmmapSlots) (slot nextSlot : PmmapSlot) : PmmapSlots :=
  { s with
    slots := update s.slots slot ((s.slots slot).merge (s.slots nextSlot))
    next := Chain.removeAfter s.next slot }

/-- Step 1 of `pmmap_merge`. -/
def mergeLoop : ℕ → Option PmmapSlot → PmmapSlots → Option PmmapSlots
  | 0, _, _ => none
  | _ + 1, none, s => some s
  | n + 1, some slot, s =>
    match s.next slot with
    | none => some s
    | some nextSlot =>
      if (s.slots slot).start ≤ (s.slots nextSlot).start ∧
          (s.slots nextSlot).start ≤ (s.slots slot).stop ∧
          (s.slots slot).type = (s.slots nextSlot).type then
        -- the loop goes on behind the slot just removed
        mergeLoop n ((s.mergeNext slot nextSlot).next slot) (s.mergeNext slot nextSlot)
      else mergeLoop n (s.next slot) s

/-- A slot is put at the end of its sublist; `last` is that end. -/
def insertType (s : PmmapSlots) (k : Fin 4) (last : Option PmmapSlot) (slot : PmmapSlot) : PmmapSlots :=
  match last with
  | some last => { s with typeNext := Chain.insertAfter s.typeNext last slot }
  | none =>
    { s with
      typeNext := update s.typeNext slot (s.sublist k)
      sublist := update s.sublist k (some slot) }

/-- Step 2 of `pmmap_merge`, with the array `last_slot`. -/
def threadLoop : ℕ → Option PmmapSlot → (Fin 4 → Option PmmapSlot) → PmmapSlots →
    Option ((Fin 4 → Option PmmapSlot) × PmmapSlots)
  | 0, _, _, _ => none
  | _ + 1, none, last, s => some (last, s)
  | n + 1, some slot, last, s =>
    -- a type without a sublist fails the assertion
    (pmmapSublistNr (s.slots slot).type).bind fun k =>
      threadLoop n (s.next slot) (update last k (some slot)) (s.insertType k (last k) slot)

/-- The last statement of `pmmap_merge`. -/
def storeMax (s : PmmapSlots) : Option PmmapSlot → PmmapSlots
  | some slot => { s with maxUsableMemory := (s.slots slot).stop }
  | none => s

def pmmapMerge (s : PmmapSlots) : Option PmmapSlots :=
  (mergeLoop rounds s.list s).bind fun s =>
    (threadLoop rounds s.list (fun _ => none) s).map fun (last, s) => s.storeMax (last 0)

/-! ### `pmmap_init` -/

/-- The copying loop of `pmmap_init`. -/
def copyEntries : List MbootMmap → PmmapSlots → Option PmmapSlots
  | [], s => some s
  | p :: ps, s =>
    if p.baseAddrHigh ≠ 0 then copyEntries ps s
    else (s.pmmapInsert p.slot).bind (copyEntries ps)

/-- The counting loop of `pmmap_init`. -/
def countLoop (s : PmmapSlots) : ℕ → Option PmmapSlot → ℕ → Option ℕ
  | 0, _, _ => none
  | _ + 1, none, i => some i
  | n + 1, some slot, i => s.countLoop n (s.next slot) (i + 1)

/-- The static variables before `pmmap_init`. -/
def boot : PmmapSlots where
  slots := fun _ => ⟨0, 0, 0, le_rfl, word_pos⟩
  next := fun _ => none
  typeNext := fun _ => none
  slotsNextFree := 0
  slotsNextFree_le := Nat.zero_le _
  list := none
  sublist := fun _ => none
  maxUsableMemory := 0
  memNpages := 0
  nentries := 0

def pmmapInit (mbi : List MbootMmap) : Option PmmapSlots :=
  (copyEntries mbi { boot with list := none, sublist := fun _ => none }).bind fun s =>
    s.pmmapMerge.bind fun s =>
      (s.countLoop rounds s.list s.nentries).map fun n =>
        { s with nentries := n, memNpages := s.maxUsableMemory / 4096 * 4096 / 4096 }

/-! ### The table functions -/

def getSize (s : PmmapSlots) : ℕ := s.nentries

/-- The search of `get_mms`, `get_mml` and `is_usable`: the slot and the counter at
which it stopped. -/
def seek (s : PmmapSlots) (idx : ℤ) : ℕ → Option PmmapSlot → ℕ → Option (Option PmmapSlot × ℕ)
  | 0, _, _ => none
  | _ + 1, none, i => some (none, i)
  | n + 1, some slot, i =>
    if (i : ℤ) = idx then some (some slot, i) else s.seek idx n (s.next slot) (i + 1)

/-- What the three functions have in common: `f` of the slot number `idx`, or 0. -/
def rowOf (f : Pmmap → ℕ) (s : PmmapSlots) (idx : ℤ) : Option ℕ :=
  (s.seek idx rounds s.list 0).map fun
    | (none, _) => 0
    | (some slot, i) => if i = s.nentries then 0 else f (s.slots slot)

def getMms : PmmapSlots → ℤ → Option ℕ := rowOf fun p => p.start

def getMml : PmmapSlots → ℤ → Option ℕ := rowOf fun p => p.stop - p.start

def isUsable : PmmapSlots → ℤ → Option ℕ := rowOf fun p => if p.type = memRam then 1 else 0

/-! ### The slots against the list of regions -/

variable {s : PmmapSlots} {idxs : List PmmapSlot}

theorem length_lt_rounds {next : PmmapSlot → Option PmmapSlot} {p : Option PmmapSlot}
    (h : Leads next p idxs) : idxs.length < rounds :=
  Nat.lt_succ_of_le (h.nodup.length_le_card.trans_eq (Fintype.card_fin 128))

/-- While entries are copied: the slots of the list, all handed out before, and nothing
done to the other variables. -/
structure Copied (s : PmmapSlots) (idxs : List PmmapSlot) : Prop where
  leads : Leads s.next s.list idxs
  used : ∀ slot ∈ idxs, slot.val < s.slotsNextFree
  sublist_eq : s.sublist = fun _ => none
  max_eq : s.maxUsableMemory = 0
  nentries_eq : s.nentries = 0

theorem lastSlot_eq {start : ℕ} : ∀ {idxs : List PmmapSlot} {p last : Option PmmapSlot} {n : ℕ},
    Leads s.next p idxs → idxs.length < n →
    s.lastSlot start n p last =
      some ((idxs.takeWhile fun i => (s.slots i).start ≤ start).getLast?.or last) := by
  intro idxs
  induction idxs with
  | nil =>
    intro p last n h hn
    obtain ⟨n, rfl⟩ := Nat.exists_eq_add_of_lt hn
    change p = none at h
    rw [h]
    rfl
  | cons slot idxs ih =>
    intro p last n h hn
    obtain ⟨m, rfl⟩ : ∃ m, n = m + 1 := ⟨n - 1, by omega⟩
    rw [h.1, lastSlot]
    by_cases hlt : start < (s.slots slot).start
    · simp [hlt]
    · rw [if_neg hlt, ih h.2 (by simpa using hn), takeWhile_cons_of_pos (by simpa using hlt),
        getLast?_cons]
      cases (idxs.takeWhile fun i => (s.slots i).start ≤ start).getLast? <;> rfl

end PmmapSlots

/-- The list model inserts in the same place. -/
theorem insertSlot_eq (new : Pmmap) (l : List Pmmap) :
    insertSlot new l = (l.takeWhile fun p => p.start ≤ new.start) ++
      new :: l.dropWhile fun p => p.start ≤ new.start := by
  induction l with
  | nil => rfl
  | cons slot l ih =>
    rw [insertSlot]
    by_cases h : new.start < slot.start
    · simp [h]
    · simp [h, not_lt.mp h, ih]

namespace PmmapSlots

variable {s : PmmapSlots} {idxs : List PmmapSlot}

/-- **One entry more**: the slot taken from the array goes where the list model puts the
region. -/
theorem Copied.pmmapInsert (h : s.Copied idxs) (new : Pmmap) (hfree : s.slotsNextFree < 128) :
    ∃ s' idxs', s.pmmapInsert new = some s' ∧ s'.Copied idxs' ∧
      idxs'.map s'.slots = insertSlot new (idxs.map s.slots) ∧
      s'.slotsNextFree = s.slotsNextFree + 1 := by
  set free : PmmapSlot := ⟨s.slotsNextFree, hfree⟩
  have hnew : free ∉ idxs := fun hm => lt_irrefl _ (h.used free hm)
  set s1 : PmmapSlots := PmmapSlots.setSlot
    { s with slotsNextFree := s.slotsNextFree + 1, slotsNextFree_le := hfree } free new
  have halloc : s.pmmapAllocSlot = some (free,
      { s with slotsNextFree := s.slotsNextFree + 1, slotsNextFree_le := hfree }) := by
    rw [pmmapAllocSlot, dif_neg (by omega)]
  have hleads : Leads s1.next s1.list idxs := h.leads
  have hslots : idxs.map s1.slots = idxs.map s.slots :=
    map_congr_left fun i hi => update_of_ne (ne_of_mem_of_not_mem hi hnew) _ _
  have hfreeData : s1.slots free = new := update_self ..
  have hinsert : s.pmmapInsert new = (s1.lastSlot new.start rounds s1.list none).map fun
      | none => s1.insertHead free
      | some last => s1.insertAfter last free := by
    rw [PmmapSlots.pmmapInsert, halloc]
    rfl
  rw [hinsert, lastSlot_eq hleads (length_lt_rounds hleads), insertSlot_eq, ← hslots,
    takeWhile_map, dropWhile_map]
  set test : PmmapSlot → Bool := (fun p : Pmmap => decide (p.start ≤ new.start)) ∘ s1.slots
  have hsplit : idxs.takeWhile test ++ idxs.dropWhile test = idxs := takeWhile_append_dropWhile
  have hused : ∀ i ∈ free :: idxs, i.val < s1.slotsNextFree := by
    intro i hi
    rcases mem_cons.mp hi with rfl | hi
    · exact Nat.lt_succ_self _
    · exact Nat.lt_succ_of_lt (h.used i hi)
  rcases eq_nil_or_concat' (idxs.takeWhile test) with hnil | ⟨l1, last, hlast⟩
  · rw [hnil, nil_append] at hsplit
    refine ⟨s1.insertHead free, free :: idxs, ?_, ⟨hleads.insertHead hnew, hused,
      h.sublist_eq, h.max_eq, h.nentries_eq⟩, ?_, rfl⟩
    · change some (match (idxs.takeWhile test).getLast?.or none with | none => _ | some _ => _) = _
      rw [hnil]
      rfl
    · rw [hnil, hsplit, map_cons, map_nil, nil_append]
      exact congrArg (· :: _) hfreeData
  · rw [hlast] at hsplit
    set l2 := idxs.dropWhile test
    rw [append_assoc, singleton_append] at hsplit
    rw [← hsplit] at hleads hnew hused
    have hmem : ∀ i ∈ l1 ++ last :: free :: l2, i ∈ free :: (l1 ++ last :: l2) := by
      intro i hi
      simp only [mem_append, mem_cons] at hi ⊢
      tauto
    refine ⟨s1.insertAfter last free, l1 ++ last :: free :: l2, ?_, ⟨hleads.insertAfter hnew,
      fun i hi => hused i (hmem i hi), h.sublist_eq, h.max_eq, h.nentries_eq⟩, ?_, rfl⟩
    · change some (match (idxs.takeWhile test).getLast?.or none with | none => _ | some _ => _) = _
      rw [hlast]
      simp
    · rw [hlast]
      change (l1 ++ last :: free :: l2).map s1.slots = _
      rw [map_append, map_cons, map_cons, hfreeData, map_append, append_assoc]
      rfl

theorem Copied.copyEntries : ∀ (ps : List MbootMmap) {s : PmmapSlots} {idxs : List PmmapSlot},
    s.Copied idxs → s.slotsNextFree + (below4G ps).length ≤ 128 →
    ∃ s' idxs', PmmapSlots.copyEntries ps s = some s' ∧ s'.Copied idxs' ∧
      Mcertikos.copyEntries ps ⟨s.slotsNextFree, idxs.map s.slots⟩ =
        some ⟨s'.slotsNextFree, idxs'.map s'.slots⟩ := by
  intro ps
  induction ps with
  | nil => exact fun {s idxs} h _ => ⟨s, idxs, rfl, h, rfl⟩
  | cons p ps ih =>
    intro s idxs h hroom
    by_cases hp : p.baseAddrHigh = 0
    · have hcount : (below4G (p :: ps)).length = (below4G ps).length + 1 := by simp [below4G, hp]
      obtain ⟨s1, idxs1, hs1, h1, hmap, hfree⟩ := h.pmmapInsert p.slot (by omega)
      obtain ⟨s', idxs', hs', h', hlist⟩ := ih h1 (by omega)
      refine ⟨s', idxs', ?_, h', ?_⟩
      · rw [PmmapSlots.copyEntries, if_neg (not_not.mpr hp), hs1]
        exact hs'
      · rw [Mcertikos.copyEntries, if_neg (not_not.mpr hp), Mcertikos.pmmapInsert,
          if_neg (by dsimp only; omega), ← hfree, ← hmap]
        exact hlist
    · have hcount : (below4G (p :: ps)).length = (below4G ps).length := by simp [below4G, hp]
      obtain ⟨s', idxs', hs', h', hlist⟩ := ih h (by omega)
      refine ⟨s', idxs', ?_, h', ?_⟩
      · rw [PmmapSlots.copyEntries, if_pos hp, hs']
      · rw [Mcertikos.copyEntries, if_pos hp, hlist]

/-- **Step 1 on the slots**: behind the slots already passed, `pre`, what is left of the
list is merged as in the list model. -/
theorem mergeLoop_eq : ∀ {n : ℕ} {pre rest : List PmmapSlot} {p : Option PmmapSlot} {s : PmmapSlots},
    Leads s.next s.list (pre ++ rest) → Leads s.next p rest → rest.length < n →
    ∃ slots next rest', mergeLoop n p s = some { s with slots := slots, next := next } ∧
      Leads next s.list (pre ++ rest') ∧ (∀ i ∈ pre, slots i = s.slots i) ∧
      rest'.map slots = mergeOverlapped (rest.map s.slots) := by
  intro n
  induction n with
  | zero => exact nofun
  | succ n ih =>
    intro pre rest p s hl hp hn
    match rest with
    | [] =>
      obtain rfl : p = none := hp
      exact ⟨s.slots, s.next, [], rfl, hl, fun _ _ => rfl, rfl⟩
    | [a] =>
      refine ⟨s.slots, s.next, [a], ?_, hl, fun _ _ => rfl, rfl⟩
      rw [hp.1, mergeLoop, show s.next a = none from hp.2]
    | a :: b :: rest =>
      obtain ⟨rfl, hb, hrest⟩ := hp
      have hl' : Leads s.next s.list ((pre ++ [a]) ++ b :: rest) := by simpa using hl
      rw [length_cons, length_cons] at hn
      rw [mergeLoop, hb, map_cons, map_cons, mergeOverlapped]
      dsimp only
      split
      · -- `b` is dropped and the walk goes on behind it
        have hremoved : Leads (s.mergeNext a b).next (s.mergeNext a b).list
            (pre ++ a :: rest) := hl.removeAfter
        obtain ⟨q, hq⟩ := Leads.drop hremoved
        have hnodup := hremoved.nodup
        rw [append_cons] at hremoved
        obtain ⟨slots, next, rest', heq, hleads, hpre, hmap⟩ := ih hremoved hq.2 (by omega)
        rw [append_assoc] at hleads
        rw [nodup_middle, nodup_cons, mem_append, not_or] at hnodup
        have hother : ∀ i, i ≠ a → (s.mergeNext a b).slots i = s.slots i :=
          fun i hi => update_of_ne hi _ _
        refine ⟨slots, next, a :: rest', heq, hleads, fun i hi => ?_, ?_⟩
        · rw [hpre i (by simp [hi]), hother i (ne_of_mem_of_not_mem hi hnodup.1.1)]
        · rw [map_cons, hpre a (by simp), hmap, map_congr_left fun i hi =>
            hother i (ne_of_mem_of_not_mem hi hnodup.1.2)]
          exact congrArg (· :: _) (update_self ..)
      · obtain ⟨slots, next, rest', heq, hleads, hpre, hmap⟩ :=
          ih hl' ⟨rfl, hrest⟩ (by rw [length_cons]; omega)
        refine ⟨slots, next, a :: rest', heq, by simpa using hleads,
          fun i hi => hpre i (by simp [hi]), ?_⟩
        rw [map_cons, hpre a (by simp), hmap, map_cons]

/-- The slots of `l` that belong to sublist `k`. -/
def ofType (slots : PmmapSlot → Pmmap) (k : Fin 4) (l : List PmmapSlot) : List PmmapSlot :=
  l.filter fun i => pmmapSublistNr (slots i).type = some k

/-- After the slots `pre` have been threaded: each sublist passes through those of its
type, and `last_slot` has its end. -/
structure Threaded (s : PmmapSlots) (last : Fin 4 → Option PmmapSlot) (pre : List PmmapSlot) : Prop where
  leads : ∀ k, Leads s.typeNext (s.sublist k) (ofType s.slots k pre)
  last_eq : ∀ k, last k = (ofType s.slots k pre).getLast?

theorem mem_ofType {slots : PmmapSlot → Pmmap} {k : Fin 4} {l : List PmmapSlot} {i : PmmapSlot} :
    i ∈ ofType slots k l ↔ i ∈ l ∧ pmmapSublistNr (slots i).type = some k := by
  simp [ofType]

/-- One round of step 2. -/
theorem Threaded.insertType {last : Fin 4 → Option PmmapSlot} {pre : List PmmapSlot} {slot : PmmapSlot}
    {k : Fin 4} (h : s.Threaded last pre) (hslot : slot ∉ pre)
    (hk : pmmapSublistNr (s.slots slot).type = some k) :
    (s.insertType k (last k) slot).Threaded (update last k (some slot)) (pre ++ [slot]) := by
  have hsame : ofType s.slots k (pre ++ [slot]) = ofType s.slots k pre ++ [slot] := by
    simp [ofType, hk]
  have hother : ∀ j, j ≠ k → ofType s.slots j (pre ++ [slot]) = ofType s.slots j pre := by
    intro j hj
    simp [ofType, hk, Ne.symm hj]
  have hfresh : ∀ j, slot ∉ ofType s.slots j pre := fun j hm => hslot (mem_ofType.mp hm).1
  have hslots : (s.insertType k (last k) slot).slots = s.slots := by
    unfold PmmapSlots.insertType
    cases last k <;> rfl
  have hlast : ∀ j, update last k (some slot) j =
      (ofType s.slots j (pre ++ [slot])).getLast? := by
    intro j
    by_cases hj : j = k
    · rw [hj, update_self, hsame, getLast?_append, getLast?_singleton]
      rfl
    · rw [update_of_ne hj, hother j hj, h.last_eq j]
  refine ⟨fun j => ?_, fun j => by rw [hslots]; exact hlast j⟩
  rw [hslots]
  rcases eq_nil_or_concat' (ofType s.slots k pre) with hnil | ⟨l1, a, hl1⟩
  · -- the first slot of its type
    have hnone : last k = none := by rw [h.last_eq, hnil]; rfl
    rw [hnone]
    by_cases hj : j = k
    · have hhead := h.leads k
      rw [hnil] at hhead
      change s.sublist k = none at hhead
      rw [hj, hsame, hnil]
      exact ⟨update_self .., (update_self ..).trans hhead⟩
    · rw [hother j hj]
      have hkeep := (h.leads j).congr fun i hi =>
        update_of_ne (ne_of_mem_of_not_mem hi (hfresh j)) (s.sublist k) s.typeNext
      rw [← update_of_ne hj (some slot) s.sublist] at hkeep
      exact hkeep
  · have hsome : last k = some a := by rw [h.last_eq, hl1, getLast?_append]; rfl
    rw [hsome]
    have ha : pmmapSublistNr (s.slots a).type = some k :=
      (mem_ofType.mp (hl1 ▸ mem_append_right _ mem_cons_self)).2
    by_cases hj : j = k
    · have hleads := h.leads k
      have hnew := hfresh k
      rw [hl1] at hleads hnew
      rw [hj, hsame, hl1, append_assoc]
      exact hleads.insertAfter hnew
    · rw [hother j hj]
      refine (h.leads j).congr fun i hi => Chain.insertAfter_other _ ?_ ?_
      · rintro rfl
        exact hj (Option.some.inj ((mem_ofType.mp hi).2.symm.trans ha))
      · exact ne_of_mem_of_not_mem hi (hfresh j)

/-- **Step 2 on the slots.** -/
theorem threadLoop_eq : ∀ {rest : List PmmapSlot} {n : ℕ} {pre : List PmmapSlot} {p : Option PmmapSlot}
    {last : Fin 4 → Option PmmapSlot} {s : PmmapSlots},
    Leads s.next p rest → rest.length < n → (pre ++ rest).Nodup →
    (∀ i ∈ rest, (pmmapSublistNr (s.slots i).type).isSome) → s.Threaded last pre →
    ∃ last' typeNext sublist, threadLoop n p last s =
        some (last', { s with typeNext := typeNext, sublist := sublist }) ∧
      PmmapSlots.Threaded { s with typeNext := typeNext, sublist := sublist } last'
        (pre ++ rest) := by
  intro rest
  induction rest with
  | nil =>
    intro n pre p last s hp hn _ _ h
    obtain ⟨m, rfl⟩ := Nat.exists_eq_add_of_lt hn
    obtain rfl : p = none := hp
    refine ⟨last, s.typeNext, s.sublist, rfl, ?_⟩
    rw [append_nil]
    exact h
  | cons slot rest ih =>
    intro n pre p last s hp hn hnodup htypes h
    obtain ⟨m, rfl⟩ := Nat.exists_eq_add_of_lt hn
    obtain ⟨k, hk⟩ := Option.isSome_iff_exists.mp (htypes slot mem_cons_self)
    have hslot : slot ∉ pre := by
      rw [nodup_middle, nodup_cons, mem_append, not_or] at hnodup
      exact hnodup.1.1
    obtain ⟨typeNext1, sublist1, heq1⟩ : ∃ typeNext1 sublist1, s.insertType k (last k) slot =
        { s with typeNext := typeNext1, sublist := sublist1 } := by
      unfold PmmapSlots.insertType
      cases last k with
      | none => exact ⟨_, _, rfl⟩
      | some a => exact ⟨_, s.sublist, rfl⟩
    have h1 := h.insertType hslot hk
    rw [heq1] at h1
    rw [append_cons] at hnodup ⊢
    obtain ⟨last', typeNext, sublist, heq, h'⟩ := ih
      (n := rest.length + 1 + m) (s := { s with typeNext := typeNext1, sublist := sublist1 }) hp.2 (by omega)
      hnodup (fun i hi => htypes i (mem_cons_of_mem _ hi)) h1
    refine ⟨last', typeNext, sublist, ?_, h'⟩
    rw [hp.1, threadLoop, hk, Option.bind_some, heq1]
    exact heq

theorem countLoop_eq : ∀ {idxs : List PmmapSlot} {p : Option PmmapSlot} {n i : ℕ},
    Leads s.next p idxs → idxs.length < n → s.countLoop n p i = some (i + idxs.length) := by
  intro idxs
  induction idxs with
  | nil =>
    intro p n i h hn
    obtain ⟨m, rfl⟩ := Nat.exists_eq_add_of_lt hn
    obtain rfl : p = none := h
    rfl
  | cons slot idxs ih =>
    intro p n i h hn
    rw [length_cons] at hn ⊢
    obtain ⟨m, rfl⟩ := Nat.exists_eq_add_of_lt hn
    rw [h.1, countLoop, ih h.2 (by omega)]
    congr 1
    omega

end PmmapSlots

/-! ### The finished list -/

/-- The regions in the order in which `pmmap_insert` leaves them. -/
def sortedSlots (mbi : List MbootMmap) : List Pmmap :=
  (below4G mbi).foldl (fun l p => insertSlot p.slot l) []

theorem copyEntries_list {ps : List MbootMmap} {s s' : PmmapList} (h : copyEntries ps s = some s') :
    s'.list = (below4G ps).foldl (fun l p => insertSlot p.slot l) s.list := by
  induction ps generalizing s with
  | nil => exact congrArg PmmapList.list (Option.some_inj.mp h).symm
  | cons p ps ih =>
    rw [copyEntries] at h
    by_cases hp : p.baseAddrHigh = 0
    · rw [if_neg (not_not.mpr hp)] at h
      obtain ⟨s1, h1, h⟩ := Option.bind_eq_some_iff.mp h
      rw [pmmapInsert] at h1
      split at h1
      · exact absurd h1 (by simp)
      · obtain rfl := Option.some_inj.mp h1
        rw [ih h]
        simp [below4G, hp]
    · rw [if_pos hp] at h
      rw [ih h]
      simp [below4G, hp]

/-- The end of the last usable region, 0 if there is none. -/
def usableEnd (l : List Pmmap) : ℕ :=
  ((l.filter fun p => p.type = memRam).getLast?.map Pmmap.stop).getD 0

namespace PmmapSlots

variable {s : PmmapSlots} {idxs : List PmmapSlot}

/-- The variables after `pmmap_init`, when the slots `idxs` are in the list. -/
structure Finished (s : PmmapSlots) (idxs : List PmmapSlot) : Prop where
  leads : Leads s.next s.list idxs
  sublists : ∀ k, Leads s.typeNext (s.sublist k) (ofType s.slots k idxs)
  max_eq : s.maxUsableMemory = usableEnd (idxs.map s.slots)
  nentries_eq : s.nentries = idxs.length

theorem pmmapSublistNr_eq_zero {type : ℕ} : pmmapSublistNr type = some 0 ↔ type = memRam := by
  unfold pmmapSublistNr memRam memReserved memAcpi memNvs
  split_ifs <;> simp_all

/-- `pmmap_merge` after the copying loop. -/
theorem Copied.pmmapMerge (h : s.Copied idxs)
    (htypes : ∀ p ∈ idxs.map s.slots, (pmmapSublistNr p.type).isSome) :
    ∃ s' idxs', s.pmmapMerge = some s' ∧ s'.nentries = 0 ∧
      idxs'.map s'.slots = mergeOverlapped (idxs.map s.slots) ∧
      Leads s'.next s'.list idxs' ∧
      (∀ k, Leads s'.typeNext (s'.sublist k) (ofType s'.slots k idxs')) ∧
      s'.maxUsableMemory = usableEnd (idxs'.map s'.slots) := by
  obtain ⟨slots, next, idxs', hmerge, hleads, -, hmap⟩ :=
    mergeLoop_eq (n := rounds) (show Leads s.next s.list ([] ++ idxs) from h.leads)
      h.leads (length_lt_rounds h.leads)
  have htypes' := forall_mergeOverlapped (P := fun p => (pmmapSublistNr p.type).isSome)
    (fun _ _ h _ _ _ => h) (idxs.map s.slots) htypes
  rw [← hmap] at htypes'
  set s1 : PmmapSlots := { s with slots := slots, next := next }
  have hempty : s1.Threaded (fun _ => none) [] := by
    refine ⟨fun k => ?_, fun k => rfl⟩
    exact congrFun h.sublist_eq k
  obtain ⟨last, typeNext, sublist, hthread, hdone⟩ := threadLoop_eq (n := rounds) (s := s1)
    hleads (length_lt_rounds hleads) hleads.nodup
    (fun i hi => htypes' _ (mem_map_of_mem hi)) hempty
  rw [nil_append] at hdone hleads
  set s2 : PmmapSlots := { s1 with typeNext := typeNext, sublist := sublist }
  obtain ⟨max, hmax, hstore⟩ : ∃ max, max = usableEnd (idxs'.map slots) ∧
      s2.storeMax (last 0) = { s2 with maxUsableMemory := max } := by
    refine ⟨_, rfl, ?_⟩
    have hlast := hdone.last_eq 0
    have hend : usableEnd (idxs'.map slots) =
        ((last 0).map fun i => (slots i).stop).getD s2.maxUsableMemory := by
      rw [hlast, usableEnd, filter_map, getLast?_map, Option.map_map,
        show s2.maxUsableMemory = 0 from h.max_eq]
      simp only [ofType, pmmapSublistNr_eq_zero]
      rfl
    rw [hend]
    cases last 0 <;> rfl
  refine ⟨{ s2 with maxUsableMemory := max }, idxs', ?_, h.nentries_eq, hmap, hleads,
    hdone.leads, hmax⟩
  rw [PmmapSlots.pmmapMerge, hmerge, Option.bind_some, hthread, Option.map_some]
  exact congrArg some hstore

/-- **The slots hold the list of the model**, and the other variables follow it. -/
theorem pmmapInit_refines {mbi : List MbootMmap} (hcount : (below4G mbi).length ≤ 128)
    (htype : ∀ p ∈ below4G mbi, 1 ≤ p.type ∧ p.type ≤ 4) :
    ∃ s idxs, PmmapSlots.pmmapInit mbi = some s ∧ s.Finished idxs ∧
      Mcertikos.pmmapInit mbi = some (idxs.map s.slots) ∧
      idxs.map s.slots = mergeOverlapped (sortedSlots mbi) := by
  have hboot : boot.Copied [] := ⟨rfl, by simp, rfl, rfl, rfl⟩
  obtain ⟨s1, idxs1, hcopy, h1, hlist⟩ := hboot.copyEntries mbi (by simpa [boot] using hcount)
  have hsorted : idxs1.map s1.slots = sortedSlots mbi := copyEntries_list hlist
  have htypes : ∀ p ∈ idxs1.map s1.slots, (pmmapSublistNr p.type).isSome :=
    forall_copyEntries mbi (fun p hp hhigh => pmmapSublistNr_isSome
      (htype p (mem_filter.mpr ⟨hp, by simpa using hhigh⟩))) (by simp) hlist
  obtain ⟨s2, idxs, hmerge, hzero, hmap, hleads, hsub, hmax⟩ := h1.pmmapMerge htypes
  have hinit : Mcertikos.pmmapInit mbi = some (idxs.map s2.slots) := by
    rw [Mcertikos.pmmapInit]
    have hlist' : Mcertikos.copyEntries mbi ⟨0, []⟩ = _ := hlist
    rw [hlist', Option.bind_some, Mcertikos.pmmapMerge, hmap, if_pos]
    exact forall_mergeOverlapped (fun _ _ h _ _ _ => h) _ htypes
  refine ⟨{ s2 with nentries := idxs.length
                    memNpages := s2.maxUsableMemory / 4096 * 4096 / 4096 }, idxs, ?_,
    ⟨hleads, hsub, hmax, rfl⟩, hinit, hmap.trans (congrArg _ hsorted)⟩
  rw [PmmapSlots.pmmapInit]
  have hcopy' : copyEntries mbi { boot with list := none, sublist := fun _ => none } = _ := hcopy
  rw [hcopy', Option.bind_some, hmerge, Option.bind_some,
    countLoop_eq hleads (length_lt_rounds hleads), hzero, Nat.zero_add]
  rfl

/-! ### The table functions read the list -/

theorem seek_hit : ∀ {idxs : List PmmapSlot} {p : Option PmmapSlot} {n i j : ℕ} (hj : j < idxs.length),
    Leads s.next p idxs → idxs.length < n →
    s.seek ((i + j : ℕ) : ℤ) n p i = some (some idxs[j], i + j) := by
  intro idxs
  induction idxs with
  | nil => exact nofun
  | cons slot idxs ih =>
    intro p n i j hj h hn
    rw [length_cons] at hn hj
    obtain ⟨m, rfl⟩ := Nat.exists_eq_add_of_lt hn
    rw [h.1, seek]
    cases j with
    | zero => exact if_pos rfl
    | succ j =>
      rw [if_neg (by omega), show i + (j + 1) = i + 1 + j by omega]
      exact ih (by omega) h.2 (by omega)

theorem seek_miss : ∀ {idxs : List PmmapSlot} {p : Option PmmapSlot} {n i : ℕ} {idx : ℤ},
    Leads s.next p idxs → idxs.length < n → idx < i ∨ (i + idxs.length : ℕ) ≤ idx →
    s.seek idx n p i = some (none, i + idxs.length) := by
  intro idxs
  induction idxs with
  | nil =>
    intro p n i idx h hn _
    obtain ⟨m, rfl⟩ := Nat.exists_eq_add_of_lt hn
    obtain rfl : p = none := h
    rfl
  | cons slot idxs ih =>
    intro p n i idx h hn hidx
    rw [length_cons] at hn hidx ⊢
    obtain ⟨m, rfl⟩ := Nat.exists_eq_add_of_lt hn
    rw [h.1, seek, if_neg (by omega), ih h.2 (by omega) (by omega)]
    congr 2
    omega

theorem Finished.rowOf_hit (h : s.Finished idxs) (f : Pmmap → ℕ) {j : ℕ} (hj : j < idxs.length) :
    rowOf f s j = some (f (s.slots idxs[j])) := by
  have hseek : s.seek j rounds s.list 0 = some (some idxs[j], j) := by
    simpa using seek_hit (i := 0) hj h.leads (length_lt_rounds h.leads)
  rw [rowOf, hseek, Option.map_some]
  exact congrArg some (if_neg (by rw [h.nentries_eq]; omega))

theorem Finished.rowOf_miss (h : s.Finished idxs) (f : Pmmap → ℕ) {idx : ℤ}
    (hidx : idx < 0 ∨ idxs.length ≤ idx) : rowOf f s idx = some 0 := by
  rw [rowOf, seek_miss h.leads (length_lt_rounds h.leads) (by simpa using hidx)]
  rfl

end PmmapSlots

/-! ### Nothing is lost -/

/-- Some region of type `type` contains the address `a`. -/
def Covered (l : List Pmmap) (type a : ℕ) : Prop :=
  ∃ e ∈ l, e.type = type ∧ e.start ≤ a ∧ a < e.stop

/-- The regions are in order of their starts. -/
def ByStart (l : List Pmmap) : Prop := l.Pairwise fun e e' => e.start ≤ e'.start

theorem insertSlot_perm (new : Pmmap) (l : List Pmmap) : (insertSlot new l).Perm (new :: l) := by
  rw [insertSlot_eq]
  refine perm_middle.trans (Perm.cons new ?_)
  rw [takeWhile_append_dropWhile]

variable {l : List Pmmap} {e x : Pmmap}

theorem ByStart.insertSlot (h : ByStart l) (new : Pmmap) : ByStart (insertSlot new l) := by
  induction l with
  | nil => exact pairwise_singleton _ _
  | cons slot l ih =>
    obtain ⟨hslot, hl⟩ := pairwise_cons.mp h
    rw [Mcertikos.insertSlot]
    split
    · rename_i hlt
      refine pairwise_cons.mpr ⟨fun e he => ?_, h⟩
      rcases mem_cons.mp he with rfl | he
      · exact hlt.le
      · exact hlt.le.trans (hslot e he)
    · rename_i hle
      refine pairwise_cons.mpr ⟨fun e he => ?_, ih hl⟩
      rcases mem_insertSlot he with rfl | he
      · exact not_lt.mp hle
      · exact hslot e he

theorem byStart_sortedSlots (mbi : List MbootMmap) : ByStart (sortedSlots mbi) :=
  foldlRecOn (below4G mbi) _ (motive := ByStart) Pairwise.nil fun _ h p _ => h.insertSlot p.slot

theorem foldl_insertSlot_perm (ps : List MbootMmap) (l : List Pmmap) :
    (ps.foldl (fun l p => insertSlot p.slot l) l).Perm (l ++ ps.map MbootMmap.slot) := by
  induction ps generalizing l with
  | nil => simp
  | cons p ps ih =>
    refine (ih _).trans ?_
    rw [map_cons]
    exact ((insertSlot_perm p.slot l).append_right _).trans perm_middle.symm

theorem mem_sortedSlots {mbi : List MbootMmap} :
    e ∈ sortedSlots mbi ↔ ∃ p ∈ below4G mbi, p.slot = e := by
  rw [sortedSlots, (foldl_insertSlot_perm _ _).mem_iff, nil_append, mem_map]

/-- A merged region starts where an old one did. -/
theorem start_of_mem_mergeOverlapped : ∀ e ∈ mergeOverlapped l, ∃ e' ∈ l, e'.start = e.start :=
  forall_mergeOverlapped (P := fun e => ∃ e' ∈ l, e'.start = e.start) (fun _ _ h _ _ _ => h) l
    fun e he => ⟨e, he, rfl⟩

theorem ByStart.mergeOverlapped (h : ByStart l) : ByStart (mergeOverlapped l) := by
  induction l using mergeOverlapped.induct with
  | case1 | case2 => exact h
  | case3 slot next rest hm ih =>
    rw [Mcertikos.mergeOverlapped, if_pos hm]
    obtain ⟨hslot, hnext⟩ := pairwise_cons.mp h
    refine pairwise_cons.mpr ⟨fun e he => ?_, ih (pairwise_cons.mp hnext).2⟩
    obtain ⟨e', he', hstart⟩ := start_of_mem_mergeOverlapped e he
    exact hstart ▸ hslot e' (mem_cons_of_mem _ he')
  | case4 slot next rest hm ih =>
    rw [Mcertikos.mergeOverlapped, if_neg hm]
    obtain ⟨hslot, hnext⟩ := pairwise_cons.mp h
    refine pairwise_cons.mpr ⟨fun e he => ?_, ih hnext⟩
    obtain ⟨e', he', hstart⟩ := start_of_mem_mergeOverlapped e he
    exact hstart ▸ hslot e' he'

theorem covered_cons {type a : ℕ} : Covered (e :: l) type a ↔
      (e.type = type ∧ e.start ≤ a ∧ a < e.stop) ∨ Covered l type a := by
  simp [Covered]

/-- **Merging covers the same addresses**, type by type. -/
theorem covered_mergeOverlapped (l : List Pmmap) (type a : ℕ) :
    Covered (mergeOverlapped l) type a ↔ Covered l type a := by
  induction l using mergeOverlapped.induct with
  | case1 | case2 => rfl
  | case3 slot next rest hm ih =>
    obtain ⟨hstart, htouch, htype⟩ := hm
    rw [mergeOverlapped, if_pos ⟨hstart, htouch, htype⟩, covered_cons, covered_cons, covered_cons,
      ih, ← or_assoc]
    refine or_congr_left ?_
    change slot.type = type ∧ slot.start ≤ a ∧ a < max slot.stop next.stop ↔ _
    rw [← htype, lt_max_iff]
    omega
  | case4 slot next rest hm ih =>
    rw [mergeOverlapped, if_neg hm, covered_cons, ih]
    exact covered_cons.symm

/-- What an entry covers below the clipping bound is what its region contains. -/
theorem MbootMmap.slot_contains {p : MbootMmap} {a : ℕ} (hp : p.baseAddrHigh = 0) :
    p.slot.start ≤ a ∧ a < p.slot.stop ↔ p.Covers a ∧ a < 2 ^ 32 - 1 := by
  have hlow := p.baseAddrLow_lt
  change p.baseAddrLow ≤ a ∧ a < p.clippedEnd ↔ _
  unfold Covers clippedEnd
  rw [hp]
  split
  · rename_i h
    rcases h with h | h <;> omega
  · rename_i h
    rw [not_or, not_le] at h
    omega

theorem covered_sortedSlots (mbi : List MbootMmap) (type a : ℕ) : Covered (sortedSlots mbi) type a ↔
      ∃ p ∈ mbi, p.type = type ∧ p.Covers a ∧ a < 2 ^ 32 - 1 := by
  unfold Covered
  constructor
  · rintro ⟨e, he, htype, hin⟩
    obtain ⟨p, hp, rfl⟩ := mem_sortedSlots.mp he
    obtain ⟨hmem, hhigh⟩ := mem_filter.mp hp
    exact ⟨p, hmem, htype, (MbootMmap.slot_contains (of_decide_eq_true hhigh)).mp hin⟩
  · rintro ⟨p, hp, htype, hin⟩
    -- an entry above 4GB covers nothing below the bound
    have hhigh : p.baseAddrHigh = 0 := by
      have := hin.1.1
      omega
    have hmem : p ∈ below4G mbi := mem_filter.mpr ⟨hp, decide_eq_true hhigh⟩
    exact ⟨p.slot, mem_sortedSlots.mpr ⟨p, hmem, rfl⟩, htype,
      (MbootMmap.slot_contains hhigh).mpr hin⟩

/-- The memory map in normal form: the slots `idxs` make up the list. -/
structure PmmapSlots.Normalised (mbi : List MbootMmap) (s : PmmapSlots) (idxs : List PmmapSlot) :
    Prop where
  leads : Leads s.next s.list idxs
  sorted : ByStart (idxs.map s.slots)
  covers : ∀ type a, Covered (idxs.map s.slots) type a ↔
    ∃ p ∈ mbi, p.type = type ∧ p.Covers a ∧ a < 2 ^ 32 - 1
  sublists : ∀ k, Leads s.typeNext (s.sublist k)
    (idxs.filter fun i => pmmapSublistNr (s.slots i).type = some k)
  size : s.getSize = idxs.length
  rows : ∀ j (hj : j < idxs.length), s.getMms j = some (s.slots idxs[j]).start ∧
    s.getMml j = some ((s.slots idxs[j]).stop - (s.slots idxs[j]).start) ∧
    s.isUsable j = some (if (s.slots idxs[j]).type = memRam then 1 else 0)
  beyond : ∀ idx : ℤ, idx < 0 ∨ idxs.length ≤ idx →
    s.getMms idx = some 0 ∧ s.getMml idx = some 0 ∧ s.isUsable idx = some 0

/-- **Normalising a memory map loses nothing**: for at most 128 entries below 4GB, of types
1 to 4, in any order and overlapping or not. -/
theorem pmmapInit_normalises (mbi : List MbootMmap) (hcount : (below4G mbi).length ≤ 128)
    (htype : ∀ p ∈ below4G mbi, 1 ≤ p.type ∧ p.type ≤ 4) :
    ∃ s idxs, PmmapSlots.pmmapInit mbi = some s ∧ PmmapSlots.Normalised mbi s idxs := by
  obtain ⟨s, idxs, hinit, h, -, hlist⟩ := PmmapSlots.pmmapInit_refines hcount htype
  refine ⟨s, idxs, hinit, h.leads, ?_, fun type a => ?_, h.sublists, h.nentries_eq,
    fun j hj => ⟨h.rowOf_hit _ hj, h.rowOf_hit _ hj, h.rowOf_hit _ hj⟩,
    fun idx hidx => ⟨h.rowOf_miss _ hidx, h.rowOf_miss _ hidx, h.rowOf_miss _ hidx⟩⟩
  · rw [hlist]
    exact (byStart_sortedSlots mbi).mergeOverlapped
  · rw [hlist, covered_mergeOverlapped, covered_sortedSlots]

/-- An entry below 4GB of less than 4GB. -/
def lowEntry (base length : Fin (2 ^ 32)) (type : ℕ) : MbootMmap :=
  ⟨base, 0, length, 0, type, base.isLt, word_pos, length.isLt, word_pos⟩

/-- A reserved page, RAM in two overlapping parts and around the page, the later part
first, and an entry of an unknown type above 4GB. -/
def scatteredMap : List MbootMmap :=
  [lowEntry 0x40002000 0x1000 2, lowEntry 0x40000800 0x4800 1, lowEntry 0x40000000 0x1000 1,
    ⟨0, 1, 0x1000, 0, 7, word_pos, show _ < 4294967296 by norm_num, by norm_num, word_pos⟩]

theorem pmmapInit_normalises_scattered :
    (below4G scatteredMap).length = 3 ∧
    ∃ s idxs, PmmapSlots.pmmapInit scatteredMap = some s ∧
      PmmapSlots.Normalised scatteredMap s idxs :=
  ⟨by decide, pmmapInit_normalises scatteredMap (by decide) (by decide)⟩

/-! ### What one pass leaves unmerged -/

end Mcertikos
