/-
Page quotas are never exceeded.

A `Ledger` is the allocator state together with two pieces of history: the
pages every container was handed and still holds, and the container ids
`container_split` has returned.  `Ledger.Inv` is the invariant of all runs of
splits (of containers in use), allocations and frees:

* `Ledger.inv_exec` — every operation keeps it;
* `Ledger.inv_of_run` — so it holds in every reachable state, where a
  container's pages and its children's quotas are covered by its usage, usage
  by quota, ids are distinct and no more pages are allocated than were free at
  boot.

The restriction to containers in use is needed: `container_split` of an unused
container succeeds with quota `0`, and the parent's own later split resets the
child count, so that one id is handed out twice.
-/
import Mcertikos.Pmm.Container
import Mathlib.Algebra.BigOperators.Group.Finset.Basic
import Mathlib.Logic.Relation

namespace Mcertikos

open Finset Relation Function AllocTable Pmm

/-- Allocator state with its history. -/
structure Ledger where
  pmm : Pmm
  /-- pages handed to a container by `container_alloc` and not yet freed -/
  held : ℕ → Finset ℕ
  /-- ids returned by `container_split`, latest first -/
  ids : List ℕ

inductive QuotaOp where
  | split (id n : ℕ)
  | alloc (id : ℕ)
  | free (id page : ℕ)

namespace Ledger

def exec (g : Ledger) : QuotaOp → Ledger
  | .split id n =>
    let (child, s) := g.pmm.containerSplit id n
    { g with pmm := s, ids := child :: g.ids }
  | .alloc id =>
    let (p, s) := g.pmm.containerAlloc id
    { g with
      pmm := s
      held := if p = 0 then g.held else update g.held id (insert p (g.held id)) }
  | .free id page =>
    { g with
      pmm := g.pmm.containerFree id page
      held := update g.held id ((g.held id).erase page) }

/-- The conditions under which the operations are called: a split fits in the
quota, in the number of children and in the container array; only a held page
is freed. -/
def Allowed (g : Ledger) : QuotaOp → Prop
  | .split id n =>
    id < numIds ∧ (g.pmm.CONTAINER id).usage + n ≤ (g.pmm.CONTAINER id).quota ∧
      (g.pmm.CONTAINER id).nchildren < maxChildren ∧ g.pmm.childIndex id < numIds
  | .alloc id => id < numIds
  | .free id page => id < numIds ∧ page ∈ g.held id

/-- Only containers in use are split. -/
def SplitsUsed (g : Ledger) : QuotaOp → Prop
  | .split id _ => (g.pmm.CONTAINER id).used ≠ 0
  | _ => True

/-- One call that meets the conditions. -/
def Step (g g' : Ledger) : Prop := ∃ op, g.Allowed op ∧ g' = g.exec op

/-- One call that meets the conditions and splits no unused container. -/
def UsedStep (g g' : Ledger) : Prop := ∃ op, g.Allowed op ∧ g.SplitsUsed op ∧ g' = g.exec op

def init (mm : List MmRow) (beyond : ℕ → SContainer) : Ledger :=
  ⟨containerInit mm beyond, fun _ => ∅, []⟩

end Ledger

/-- The quota container `c` takes from container `id`: all of it if `c` is a
child of `id` (the root is its own parent and no child). -/
def Pmm.childShare (s : Pmm) (id c : ℕ) : ℕ :=
  if c ≠ 0 ∧ (s.CONTAINER c).used ≠ 0 ∧ (s.CONTAINER c).parent = id then (s.CONTAINER c).quota
  else 0

/-- The sum of the quotas of the children of `id`. -/
def Pmm.childQuota (s : Pmm) (id : ℕ) : ℕ := ∑ c ∈ range numIds, s.childShare id c

/-- The allocated normal pages, among all entries of `AT`. -/
def AllocTable.allocatedNormal (t : AllocTable) : Finset ℕ :=
  (range (2 ^ 20)).filter fun i => t.atIsNorm i = true ∧ t.atIsAllocated i = true

/-! ### Children's quotas under the operations -/

namespace Pmm

/-- Another usage for one container, and another page table. -/
abbrev charge (s : Pmm) (id u : ℕ) (t : AllocTable) : Pmm :=
  { s.setContainer id { s.CONTAINER id with usage := u } with tbl := t }

variable {s : Pmm} {id u n x : ℕ} {t : AllocTable}

theorem charge_fields (s : Pmm) (id u : ℕ) (t : AllocTable) (x : ℕ) :
    ((s.charge id u t).CONTAINER x).used = (s.CONTAINER x).used ∧
      ((s.charge id u t).CONTAINER x).parent = (s.CONTAINER x).parent ∧
      ((s.charge id u t).CONTAINER x).nchildren = (s.CONTAINER x).nchildren ∧
      ((s.charge id u t).CONTAINER x).quota = (s.CONTAINER x).quota := by
  by_cases hx : x = id
  · subst hx
    simp
  · simp [setContainer_other s _ hx]

theorem childQuota_charge (s : Pmm) (id u : ℕ) (t : AllocTable) (x : ℕ) :
    (s.charge id u t).childQuota x = s.childQuota x := by
  refine sum_congr rfl fun c _ => ?_
  obtain ⟨h1, h2, -, h4⟩ := charge_fields s id u t c
  rw [childShare, childShare, h1, h2, h4]

/-- The three kinds of records after `container_split`. -/
theorem split_parent (n : ℕ) (hnc : (s.CONTAINER id).nchildren < maxChildren) :
    (s.containerSplit id n).2.CONTAINER id = { s.CONTAINER id with
      usage := ((s.CONTAINER id).usage + n) % 2 ^ 32
      nchildren := (s.CONTAINER id).nchildren + 1 } := by
  unfold maxChildren at hnc
  rw [containerSplit_eq, setContainer_same, Nat.mod_eq_of_lt (a := _ + 1) (by omega)]

theorem split_child (s : Pmm) (id n : ℕ) :
    (s.containerSplit id n).2.CONTAINER (s.childIndex id) = ⟨n, 0, id, 0, 1⟩ := by
  rw [containerSplit_eq, setContainer_other _ _ (childIndex_ne s id), setContainer_same]

theorem split_other (n : ℕ) (hx : x ≠ id) (hx' : x ≠ s.childIndex id) :
    (s.containerSplit id n).2.CONTAINER x = s.CONTAINER x := by
  rw [containerSplit_eq, setContainer_other _ _ hx, setContainer_other _ _ hx']

theorem split_kept (n : ℕ) (hx : x ≠ s.childIndex id) :
    ((s.containerSplit id n).2.CONTAINER x).used = (s.CONTAINER x).used ∧
      ((s.containerSplit id n).2.CONTAINER x).parent = (s.CONTAINER x).parent := by
  by_cases he : x = id
  · rw [he, containerSplit_eq, setContainer_same]
    exact ⟨rfl, rfl⟩
  · rw [split_other n he hx]
    exact ⟨rfl, rfl⟩

theorem childShare_split_other {c : ℕ} (x : ℕ) (hc : c ≠ s.childIndex id) :
    (s.containerSplit id n).2.childShare x c = s.childShare x c := by
  rw [containerSplit_eq]
  by_cases hid : c = id
  · subst hid
    simp [childShare]
  · simp [childShare, setContainer_other _ _ hid, setContainer_other _ _ hc]

/-- Splitting adds the new quota to the parent's sum and to no other. -/
theorem childQuota_split (x : ℕ) (hlt : s.childIndex id < numIds)
    (hfresh : (s.CONTAINER (s.childIndex id)).used = 0) :
    (s.containerSplit id n).2.childQuota x = s.childQuota x + if x = id then n else 0 := by
  have hmem : s.childIndex id ∈ range numIds := mem_range.mpr hlt
  have hold : s.childShare x (s.childIndex id) = 0 := by
    simp [childShare, hfresh]
  have hnew : (s.containerSplit id n).2.childShare x (s.childIndex id)
      = if x = id then n else 0 := by
    have hpos : s.childIndex id ≠ 0 := by
      unfold childIndex
      omega
    simp [childShare, split_child, hpos, eq_comm]
  have hrest : ∑ c ∈ (range numIds).erase (s.childIndex id),
      (s.containerSplit id n).2.childShare x c
        = ∑ c ∈ (range numIds).erase (s.childIndex id), s.childShare x c :=
    sum_congr rfl fun c hc => childShare_split_other x (ne_of_mem_erase hc)
  unfold childQuota
  rw [← add_sum_erase _ _ hmem, ← add_sum_erase _ (s.childShare x) hmem, hrest, hnew, hold]
  omega

/-- A used container is one of the children its parent has counted. -/
def Counted (s : Pmm) : Prop := ∀ c < numIds, (s.CONTAINER c).used ≠ 0 → c ≠ 0 →
  (s.CONTAINER c).parent = (c - 1) / 3 ∧ (s.CONTAINER ((c - 1) / 3)).used ≠ 0 ∧
    (c - 1) % 3 < (s.CONTAINER ((c - 1) / 3)).nchildren

theorem Counted.charge (h : s.Counted) : (s.charge id u t).Counted := by
  intro c hc hu h0
  have hf := charge_fields s id u t
  rw [(hf c).1] at hu
  rw [(hf c).2.1, (hf _).1, (hf _).2.2.1]
  exact h c hc hu h0

theorem childIndex_split (hnc : (s.CONTAINER id).nchildren < maxChildren) :
    (s.childIndex id - 1) / 3 = id ∧ (s.childIndex id - 1) % 3 = (s.CONTAINER id).nchildren := by
  unfold childIndex maxChildren at *
  omega

/-- The next child of a container is an unused one: a used container in that place would be a
child that its parent has not counted. -/
theorem Counted.fresh (h : s.Counted) (hnc : (s.CONTAINER id).nchildren < maxChildren)
    (hlt : s.childIndex id < numIds) : (s.CONTAINER (s.childIndex id)).used = 0 := by
  by_contra hu
  obtain ⟨-, -, hcount⟩ := h _ hlt hu (by unfold childIndex; omega)
  rw [(childIndex_split hnc).1, (childIndex_split hnc).2] at hcount
  exact absurd hcount (lt_irrefl _)

theorem Counted.split (h : s.Counted) (hused : (s.CONTAINER id).used ≠ 0)
    (hnc : (s.CONTAINER id).nchildren < maxChildren)
    (hfresh : (s.CONTAINER (s.childIndex id)).used = 0) : (s.containerSplit id n).2.Counted := by
  intro c hc hu h0
  by_cases hcc : c = s.childIndex id
  · rw [hcc, (childIndex_split hnc).1, (childIndex_split hnc).2, split_child, split_parent n hnc]
    exact ⟨rfl, hused, Nat.lt_succ_self _⟩
  · rw [(split_kept n hcc).1] at hu
    obtain ⟨hpar, hpu, hcnt⟩ := h c hc hu h0
    -- the parent of an old container is an old container
    have hpc : (c - 1) / 3 ≠ s.childIndex id := fun he => hpu (he ▸ hfresh)
    rw [(split_kept n hcc).2, (split_kept n hpc).1]
    refine ⟨hpar, hpu, ?_⟩
    by_cases hpid : (c - 1) / 3 = id
    · rw [hpid] at hcnt ⊢
      rw [split_parent n hnc]
      exact Nat.lt_succ_of_lt hcnt
    · rwa [split_other n hpid hpc]

end Pmm

/-! ### The invariant -/

/-- The allocation table, and who holds its pages. -/
structure Ledger.Pages (mm : List MmRow) (t : AllocTable) (held : ℕ → Finset ℕ) : Prop where
  norm : ∀ i, t.atIsNorm i = (pmemInit mm).atIsNorm i
  held_allocated : ∀ id, ∀ p ∈ held id, t.atIsAllocated p = true
  held_disjoint : ∀ a b p, p ∈ held a → p ∈ held b → a = b
  allocated : ∀ p, t.atIsAllocated p = true → t.atIsNorm p = true ∧ 1 ≤ p

/-- The invariant of all runs that split only containers in use. -/
structure Ledger.Inv (mm : List MmRow) (g : Ledger) : Prop extends
    Ledger.Pages mm g.pmm.tbl g.held where
  counted : g.pmm.Counted
  /-- an unused record is still all zero -/
  unused : ∀ id < numIds, (g.pmm.CONTAINER id).used = 0 →
    g.pmm.CONTAINER id = ⟨0, 0, 0, 0, 0⟩ ∧ g.held id = ∅
  account : ∀ id < numIds, (g.pmm.CONTAINER id).used ≠ 0 →
    (g.held id).card + g.pmm.childQuota id ≤ (g.pmm.CONTAINER id).usage ∧
      (g.pmm.CONTAINER id).usage ≤ (g.pmm.CONTAINER id).quota ∧
      (g.pmm.CONTAINER id).quota ≤ 2 ^ 20
  ids_used : ∀ c ∈ g.ids, c < numIds ∧ (g.pmm.CONTAINER c).used ≠ 0
  ids_nodup : g.ids.Nodup

namespace Ledger

variable {mm : List MmRow} {g : Ledger} {t : AllocTable} {held : ℕ → Finset ℕ} {id p : ℕ}

theorem inv_init (mm : List MmRow) (beyond : ℕ → SContainer) : (init mm beyond).Inv mm where
  norm := fun _ => rfl
  held_allocated := nofun
  held_disjoint := nofun
  allocated := fun p hp => (nomatch (pmemInit_unallocated mm p).symm.trans hp)
  counted := by
    intro c hc h h0
    simp [init, containerInit, h0, hc] at h
  unused := by
    intro id hid h
    by_cases h0 : id = 0
    · simp [init, containerInit, h0] at h
    · simp [init, containerInit, h0, hid]
  account := by
    intro id hid h
    by_cases h0 : id = 0
    · subst h0
      -- no child record is in use yet
      have hsum : (containerInit mm beyond).childQuota 0 = 0 := by
        refine sum_eq_zero fun c hc => ?_
        by_cases hc0 : c = 0
        · simp [childShare, hc0]
        · simp [childShare, containerInit, hc0, mem_range.mp hc]
      rw [show (init mm beyond).pmm = containerInit mm beyond from rfl, hsum]
      simpa [init, containerInit] using realQuota_le mm
    · simp [init, containerInit, h0, hid] at h
  ids_used := nofun
  ids_nodup := List.nodup_nil

/-- A free page is handed to `id`. -/
theorem Pages.take (h : Pages mm t held) (hfree : t.isFree p = true) (hp : 1 ≤ p) (id : ℕ) :
    Pages mm { t.atSetAllocated p 1 with lastPallocIndex := p }
      (update held id (insert p (held id))) := by
  obtain ⟨hpn, hpa⟩ := isFree_iff.mp hfree
  have hpnot : ∀ x, p ∉ held x := fun x hx => (nomatch hpa.symm.trans (h.held_allocated x p hx))
  have hflag : ∀ j, atIsAllocated { t.atSetAllocated p 1 with lastPallocIndex := p } j
      = if j = p then true else t.atIsAllocated j := fun j =>
    (atIsAllocated_setAllocated t p 1 j).trans (by simp)
  have hnorm : ∀ j, atIsNorm { t.atSetAllocated p 1 with lastPallocIndex := p } j
      = t.atIsNorm j := fun j => atIsNorm_setAllocated t p 1 j
  have hmem : ∀ x q, q ∈ update held id (insert p (held id)) x →
      q = p ∧ x = id ∨ q ∈ held x := by
    intro x q hq
    by_cases hx : x = id
    · subst hx
      rw [update_self, mem_insert] at hq
      exact hq.imp_left fun he => ⟨he, rfl⟩
    · rw [update_of_ne hx] at hq
      exact .inr hq
  refine ⟨fun i => (hnorm i).trans (h.norm i), fun x q hq => ?_, fun a b q ha hb => ?_,
    fun q hq => ?_⟩
  · rw [hflag]
    rcases hmem x q hq with ⟨rfl, _⟩ | hold
    · simp
    · simp [h.held_allocated x q hold]
  · rcases hmem a q ha with ⟨rfl, rfl⟩ | hold
    · rcases hmem b q hb with ⟨_, rfl⟩ | hold'
      · rfl
      · exact absurd hold' (hpnot b)
    · rcases hmem b q hb with ⟨rfl, _⟩ | hold'
      · exact absurd hold (hpnot a)
      · exact h.held_disjoint a b q hold hold'
  · rw [hflag] at hq
    rw [hnorm]
    by_cases hqp : q = p
    · exact hqp ▸ ⟨hpn, hp⟩
    · rw [if_neg hqp] at hq
      exact h.allocated q hq

/-- A page that `id` holds is returned. -/
theorem Pages.give (h : Pages mm t held) (hp : p ∈ held id) :
    Pages mm (t.pfree p) (update held id ((held id).erase p)) := by
  have hflag : ∀ j, (t.pfree p).atIsAllocated j = if j = p then false else t.atIsAllocated j :=
    fun j => (atIsAllocated_setAllocated t p 0 j).trans (by simp)
  have hnorm : ∀ j, (t.pfree p).atIsNorm j = t.atIsNorm j := atIsNorm_setAllocated t p 0
  -- a page still held by anybody after the call is another page
  have hmem : ∀ x q, q ∈ update held id ((held id).erase p) x → q ≠ p ∧ q ∈ held x := by
    intro x q hq
    by_cases hx : x = id
    · subst hx
      rw [update_self] at hq
      exact mem_erase.mp hq
    · rw [update_of_ne hx] at hq
      exact ⟨fun he => hx (h.held_disjoint x id q hq (he ▸ hp)), hq⟩
  refine ⟨fun i => (hnorm i).trans (h.norm i), fun x q hq => ?_,
    fun a b q ha hb => h.held_disjoint a b q (hmem a q ha).2 (hmem b q hb).2, fun q hq => ?_⟩
  · rw [hflag, if_neg (hmem x q hq).1]
    exact h.held_allocated x q (hmem x q hq).2
  · rw [hflag] at hq
    rw [hnorm]
    split_ifs at hq
    exact h.allocated q hq

/-- The invariant survives a change of one container's usage, of the pages it
holds and of the allocation flags, as long as the books still balance. -/
theorem Inv.charge (h : g.Inv mm) {u : ℕ} (hused : (g.pmm.CONTAINER id).used ≠ 0)
    (hother : ∀ x, x ≠ id → held x = g.held x)
    (hacc : (held id).card + g.pmm.childQuota id ≤ u ∧ u ≤ (g.pmm.CONTAINER id).quota)
    (hpages : Pages mm t held) : Inv mm ⟨g.pmm.charge id u t, held, g.ids⟩ := by
  have hf := charge_fields g.pmm id u t
  have hrec : ∀ x, x ≠ id → (g.pmm.charge id u t).CONTAINER x = g.pmm.CONTAINER x :=
    fun x hx => setContainer_other _ _ hx
  refine ⟨hpages, h.counted.charge, fun x hx hu => ?_, fun x hx hu => ?_, fun c hc => ?_,
    h.ids_nodup⟩
  · rw [(hf x).1] at hu
    have hne : x ≠ id := fun he => hused (he ▸ hu)
    rw [hrec x hne]
    exact ⟨(h.unused x hx hu).1, (hother x hne).trans (h.unused x hx hu).2⟩
  · rw [(hf x).1] at hu
    rw [childQuota_charge, (hf x).2.2.2]
    by_cases he : x = id
    · subst he
      rw [setContainer_same]
      exact ⟨hacc.1, hacc.2, (h.account x hx hu).2.2⟩
    · rw [hrec x he]
      simpa [hother x he] using h.account x hx hu
  · rw [(hf c).1]
    exact h.ids_used c hc

theorem Inv.alloc (h : g.Inv mm) (hid : id < numIds) : (g.exec (.alloc id)).Inv mm := by
  rcases containerAlloc_cases g.pmm id with ⟨_, he⟩ | ⟨hq, c, rfl, hc⟩
  · simpa [exec, he] using h
  · -- an unused container is at its quota, so `id` is in use
    have hused : (g.pmm.CONTAINER id).used ≠ 0 := by
      intro hu
      rw [(h.unused id hid hu).1] at hq
      exact hq rfl
    obtain ⟨hlo, hhi, hbig⟩ := h.account id hid hused
    have hmod : ((g.pmm.CONTAINER id).usage + 1) % 2 ^ 32 = (g.pmm.CONTAINER id).usage + 1 :=
      Nat.mod_eq_of_lt (by omega)
    rcases hc with ⟨_, he⟩ | ⟨p, hlast, _, hfree, _, he⟩
    · simp only [exec, he, if_true, hmod]
      exact h.charge hused (fun _ _ => rfl) ⟨by omega, by omega⟩
        ⟨h.norm, h.held_allocated, h.held_disjoint, h.allocated⟩
    · have hp0 : p ≠ 0 := by omega
      have hpnot : p ∉ g.held id := fun hx =>
        (nomatch (isFree_iff.mp hfree).2.symm.trans (h.held_allocated id p hx))
      simp only [exec, he, if_neg hp0, hmod]
      refine h.charge hused (fun x hx => update_of_ne hx _ _) ⟨?_, by omega⟩
        (h.take hfree (by omega) id)
      rw [update_self, card_insert_of_notMem hpnot]
      omega

theorem Inv.free (h : g.Inv mm) (hid : id < numIds) (hp : p ∈ g.held id) :
    (g.exec (.free id p)).Inv mm := by
  have hused : (g.pmm.CONTAINER id).used ≠ 0 := by
    intro hu
    rw [(h.unused id hid hu).2] at hp
    simp at hp
  obtain ⟨hlo, hhi, hbig⟩ := h.account id hid hused
  have hpos : 0 < (g.held id).card := card_pos.mpr ⟨p, hp⟩
  have hsign : 0 < (g.pmm.CONTAINER id).usage ∧ (g.pmm.CONTAINER id).usage < 2 ^ 31 :=
    ⟨by omega, by omega⟩
  have hrun : g.exec (.free id p) =
      ⟨g.pmm.charge id ((g.pmm.CONTAINER id).usage - 1) (g.pmm.tbl.pfree p),
        update g.held id ((g.held id).erase p), g.ids⟩ := by
    simp only [exec, containerFree, h.held_allocated id p hp, if_true, if_pos hsign]
    rfl
  rw [hrun]
  refine h.charge hused (fun x hx => update_of_ne hx _ _) ⟨?_, by omega⟩ (h.give hp)
  rw [update_self, card_erase_of_mem hp]
  omega

theorem Inv.split (h : g.Inv mm) {n : ℕ} (hid : id < numIds)
    (hused : (g.pmm.CONTAINER id).used ≠ 0)
    (hfit : (g.pmm.CONTAINER id).usage + n ≤ (g.pmm.CONTAINER id).quota)
    (hnc : (g.pmm.CONTAINER id).nchildren < maxChildren)
    (hlt : g.pmm.childIndex id < numIds) :
    (g.exec (.split id n)).Inv mm := by
  have hfresh := h.counted.fresh hnc hlt
  obtain ⟨hlo, hhi, hquota⟩ := h.account id hid hused
  have hrun : g.exec (.split id n)
      = ⟨(g.pmm.containerSplit id n).2, g.held, g.pmm.childIndex id :: g.ids⟩ := by
    simp only [exec, containerSplit_eq]
  have htbl : (g.pmm.containerSplit id n).2.tbl = g.pmm.tbl := by
    rw [containerSplit_eq]
    rfl
  rw [hrun]
  refine ⟨?_, h.counted.split hused hnc hfresh, fun x hx hu => ?_, fun x hx hu => ?_,
    fun c hc => ?_, List.nodup_cons.mpr ⟨fun hm => (h.ids_used _ hm).2 hfresh, h.ids_nodup⟩⟩
  · rw [htbl]
    exact h.toPages
  · have hxc : x ≠ g.pmm.childIndex id := by
      rintro rfl
      rw [split_child] at hu
      cases hu
    rw [(split_kept n hxc).1] at hu
    have hxi : x ≠ id := fun he => hused (he ▸ hu)
    rw [split_other n hxi hxc]
    exact h.unused x hx hu
  · dsimp only
    rw [childQuota_split x hlt hfresh]
    by_cases hxc : x = g.pmm.childIndex id
    · -- the new container holds nothing and has no children yet
      have hnone : g.pmm.childQuota (g.pmm.childIndex id) = 0 := by
        refine sum_eq_zero fun c hc => ?_
        rw [childShare, if_neg]
        rintro ⟨h0, hcu, hcp⟩
        obtain ⟨hpar, hpu, _⟩ := h.counted c (mem_range.mp hc) hcu h0
        rw [← hpar, hcp] at hpu
        exact hpu hfresh
      rw [hxc, (h.unused _ hlt hfresh).2, hnone, if_neg (childIndex_ne g.pmm id), split_child]
      exact ⟨Nat.le_refl 0, Nat.zero_le n, by dsimp only; omega⟩
    · rw [(split_kept n hxc).1] at hu
      by_cases he : x = id
      · rw [if_pos he, he, split_parent n hnc]
        dsimp only
        omega
      · rw [if_neg he, Nat.add_zero, split_other n he hxc]
        exact h.account x hx hu
  · rcases List.mem_cons.mp hc with rfl | hold
    · exact ⟨hlt, by rw [split_child]; simp⟩
    · obtain ⟨hc1, hc2⟩ := h.ids_used c hold
      have hcc : c ≠ g.pmm.childIndex id := fun he => hc2 (he ▸ hfresh)
      exact ⟨hc1, by rwa [(split_kept n hcc).1]⟩

/-- **One call keeps the invariant.** -/
theorem inv_exec (h : g.Inv mm) {op : QuotaOp} (hok : g.Allowed op) (hu : g.SplitsUsed op) :
    (g.exec op).Inv mm := by
  cases op with
  | split id n =>
    obtain ⟨hid, hfit, hnc, hlt⟩ := hok
    exact h.split hid hu hfit hnc hlt
  | alloc id => exact h.alloc hok
  | free id page => exact h.free hok.1 hok.2

theorem inv_of_run {beyond : ℕ → SContainer}
    (h : ReflTransGen UsedStep (init mm beyond) g) : g.Inv mm := by
  induction h with
  | refl => exact inv_init mm beyond
  | tail _ hstep ih =>
    obtain ⟨op, hok, hu, rfl⟩ := hstep
    exact inv_exec ih hok hu

/-- Every allocated normal page was free when the quota was computed. -/
theorem Inv.allocatedNormal_le (h : g.Inv mm) :
    g.pmm.tbl.allocatedNormal.card ≤ realQuota (pmemInit mm) := by
  rw [realQuota, Nat.count_eq_card_filter_range]
  refine card_le_card fun i hi => ?_
  simp only [allocatedNormal, mem_filter] at hi
  obtain ⟨_, hn, ha⟩ := hi
  have hn' : (pmemInit mm).atIsNorm i = true := (h.norm i).symm.trans hn
  rw [mem_filter, mem_range]
  exact ⟨(pmemInit_norm hn').2.2, (h.allocated i ha).2, hn', pmemInit_unallocated mm i⟩

end Ledger

/-! ### The quota theorem -/

/-- **Quotas hold in every reachable state.**  From `container_init`, after any
sequence of splits of containers in use, allocations and frees: what a
container holds and has given to its children is covered by its usage and its
quota, the ids returned by `container_split` are distinct, and no more normal
pages are allocated than the quota computed at boot. -/
theorem quota_invariant (mm : List MmRow) (beyond : ℕ → SContainer) (g : Ledger)
    (h : ReflTransGen Ledger.UsedStep (Ledger.init mm beyond) g) :
    (∀ id < numIds, (g.pmm.CONTAINER id).used ≠ 0 →
      (g.held id).card + g.pmm.childQuota id ≤ (g.pmm.CONTAINER id).usage ∧
        (g.pmm.CONTAINER id).usage ≤ (g.pmm.CONTAINER id).quota) ∧
      g.ids.Nodup ∧
      g.pmm.tbl.allocatedNormal.card ≤ realQuota (pmemInit mm) := by
  have hinv := Ledger.inv_of_run h
  exact ⟨fun id hid hu => (hinv.account id hid hu).imp_right And.left, hinv.ids_nodup,
    hinv.allocatedNormal_le⟩

/-- A machine with 3 GB of usable memory. -/
def threeGigabytes : List MmRow := [⟨0, 0xC0000000, true, word_pos, show _ < 4294967296 by norm_num⟩]

/-- Static memory that is still zero. -/
def zeroMem : ℕ → SContainer := fun _ => ⟨0, 0, 0, 0, 0⟩

theorem quota_invariant_first_split :
    ReflTransGen Ledger.UsedStep (Ledger.init threeGigabytes zeroMem)
      ((Ledger.init threeGigabytes zeroMem).exec (.split 0 0)) ∧
    ((Ledger.init threeGigabytes zeroMem).exec (.split 0 0)).ids = [1] ∧
    ((Ledger.init threeGigabytes zeroMem).exec (.split 0 0)).ids.Nodup := by
  have hrun : ReflTransGen Ledger.UsedStep (Ledger.init threeGigabytes zeroMem)
      ((Ledger.init threeGigabytes zeroMem).exec (.split 0 0)) :=
    .single ⟨.split 0 0, ⟨by decide, Nat.zero_le _, by decide, by decide⟩, Nat.one_ne_zero, rfl⟩
  exact ⟨hrun, rfl, (quota_invariant _ _ _ hrun).2.1⟩

/-- Splitting the unused container `1` before the root has created it makes
`container_split` return id `4` twice. -/
theorem split_unused_repeats_id : ReflTransGen Ledger.Step (Ledger.init threeGigabytes zeroMem)
      ((((Ledger.init threeGigabytes zeroMem).exec (.split 1 0)).exec (.split 0 0)).exec
        (.split 1 0)) ∧
    ¬ ((((Ledger.init threeGigabytes zeroMem).exec (.split 1 0)).exec (.split 0 0)).exec
        (.split 1 0)).ids.Nodup := by
  refine ⟨((ReflTransGen.single ⟨.split 1 0, ?_, rfl⟩).tail ⟨.split 0 0, ?_, rfl⟩).tail
    ⟨.split 1 0, ?_, rfl⟩, ?repeated⟩
  case repeated =>
    rw [show ((((Ledger.init threeGigabytes zeroMem).exec (.split 1 0)).exec (.split 0 0)).exec
      (.split 1 0)).ids = [4, 1, 4] from rfl]
    decide
  all_goals exact ⟨by decide, Nat.zero_le _, by decide, by decide⟩

end Mcertikos
