/-
Giving blocks back to the buddy allocator.

A caller that changes its mind frees a block right after it was allocated, and a caller that
forgets the order of a block frees its first page only.

* `Inv.freed_again` — the first kind of call leaves the blocks as they were, exactly if the
  buddy of the block that was split up is not free as well: `alloc_pages` takes one of two free
  buddies, and `free_pages` would merge them;
* `Inv.freePages_head` — with order `0` the merging loop rebuilds the block from the order fields
  its pages have kept, and if they are those of nested halves the whole block is free again;
* `Inv.not_freePage_head` — otherwise the pages behind the first wrong field are lost.
-/
import Mcertikos.Pmm.BuddyRuns

namespace Mcertikos

open List Function Ring DyadicBlocks

namespace Buddy

variable {s s' : Buddy} {top : ℕ} {free free' : ℕ → List ℕ} {out out' : List DyadicBlocks.Block}
variable {p k c : ℕ}

/-! ### Free and allocated blocks -/

/-- The page heads a block that is marked as allocated. -/
def AllocatedBlock (s : Buddy) (b : DyadicBlocks.Block) : Prop :=
  s.allocated b.1 ≠ 0 ∧ s.order b.1 = b.2

/-- The same blocks are free, and the same are allocated. -/
structure SameBlocks (s s' : Buddy) : Prop where
  free : ∀ b, b ∈ freeBlocks s'.freeList ↔ b ∈ freeBlocks s.freeList
  allocated : ∀ b, s'.AllocatedBlock b ↔ s.AllocatedBlock b

theorem Inv.allocatedBlock_iff (h : s.Inv top free out []) (b : DyadicBlocks.Block) :
    s.AllocatedBlock b ↔ b ∈ out := by
  obtain ⟨i, k⟩ := b
  constructor
  · rintro ⟨ha, ho⟩
    obtain ⟨j, hj⟩ := (h.allocated i).mp ha
    obtain rfl : k = j := ho.symm.trans (h.outOrder _ hj).2
    exact hj
  · exact fun hb => ⟨(h.allocated i).mpr ⟨k, hb⟩, (h.outOrder _ hb).2⟩

theorem Inv.sameBlocks_iff (h : s.Inv top free out []) (h' : s'.Inv top free' out [])
    (htop : top ≤ s.numPages) (harena : SameArena s s') :
    SameBlocks s s' ↔ ∀ b, b ∈ freeBlocks free' ↔ b ∈ freeBlocks free := by
  have htop' : top ≤ s'.numPages := harena.2 ▸ htop
  constructor
  · intro hsame b
    rw [← h.mem_freeList htop, ← h'.mem_freeList htop']
    exact hsame.free b
  · refine fun hfree => ⟨fun b => ?_, fun b => ?_⟩
    · rw [h.mem_freeList htop, h'.mem_freeList htop']
      exact hfree b
    · rw [h.allocatedBlock_iff, h'.allocatedBlock_iff]

theorem SameBlocks.refl (s : Buddy) : SameBlocks s s := ⟨fun _ => Iff.rfl, fun _ => Iff.rfl⟩

/-! ### Freeing a block that was just allocated -/

/-- The blocks that were split off are merged again, the smallest first. -/
theorem Inv.coalesce_back (hc : c ≤ maxOrder) (hd : 2 ^ c ∣ p) (n d : ℕ) : ∀ {s : Buddy} {k : ℕ},
    s.Inv top (splitLists free p k c) out [(p, k)] → top ≤ s.numPages → k + d = c →
    s.order p = k →
    ∃ s1, Buddy.coalesce p (d + n) s p k = Buddy.coalesce p n s1 p c ∧
      s1.Inv top free out [(p, c)] ∧ s1.order p = c ∧ SameArena s s1 := by
  induction d with
  | zero =>
    intro s k h _ hk ho
    obtain rfl : k = c := hk
    rw [splitLists_self] at h
    exact ⟨s, by rw [Nat.zero_add], h, ho, rfl, rfl⟩
  | succ d ih =>
    intro s k h htop hk ho
    have hkm : k < maxOrder := by omega
    have hbuddy : p ^^^ 2 ^ k = p + 2 ^ k := buddy_of_dvd ((pow_dvd_pow 2 (by omega)).trans hd)
    have hlist : splitLists free p k c k = (p + 2 ^ k) :: free k := if_pos ⟨le_refl k, by omega⟩
    have hmem : p ^^^ 2 ^ k ∈ splitLists free p k c k := by
      rw [hlist, hbuddy]
      exact mem_cons_self ..
    -- the upper half passes the test
    have hpass : ¬ (s.numPages ≤ p ^^^ 2 ^ k ∨ s.allocated (p ^^^ 2 ^ k) ≠ 0 ∨
        s.order (p ^^^ 2 ^ k) ≠ k) := by
      have hlt := h.lt_top hkm.le hmem
      have ha := h.allocated_free hkm.le hmem
      have ho' := h.order k hkm.le _ hmem
      push Not
      exact ⟨by omega, ha, ho'⟩
    obtain ⟨l1, l2, hl, hmerge⟩ := h.merge hkm hmem
    -- it is the first of its list
    have hfirst : l1 ++ l2 = free k := by
      have hnd : (splitLists free p k c k).Nodup :=
        (nodup_cons.mp (h.ring k hkm.le).nodup).2.of_map _
      rw [hlist] at hl hnd
      cases l1 with
      | nil => exact ((cons.inj hl).2).symm
      | cons a l1 =>
        obtain ⟨-, htail⟩ := cons.inj hl
        refine absurd ?_ (nodup_cons.mp hnd).1
        rw [htail, ← hbuddy]
        simp
    have hlower : (if p ^^^ 2 ^ k < p then p ^^^ 2 ^ k else p) = p := by
      rw [hbuddy]
      exact if_neg (Nat.not_lt.mpr (Nat.le_add_right ..))
    have hrest : update (splitLists free p k c) k (free k) = splitLists free p (k + 1) c := by
      funext j
      by_cases hj : j = k
      · subst hj
        rw [update_self]
        exact (if_neg (by omega)).symm
      · rw [update_of_ne hj]
        exact if_congr (by omega) rfl rfl
    rw [hlower, hfirst, hrest] at hmerge
    obtain ⟨s1, hco, hinv, hord, harena⟩ := ih hmerge htop (by omega) (update_self ..)
    refine ⟨s1, ?_, hinv, hord, harena⟩
    rw [Nat.succ_add, Buddy.coalesce, if_pos hkm]
    simp only [if_neg hpass]
    rw [hlower]
    exact hco

/-- The loop does nothing if the buddy is not free. -/
theorem Inv.coalesce_stops (h : s.Inv top free out [(p, c)])
    (hbuddy : c < maxOrder → p ^^^ 2 ^ c ∉ free c) (n : ℕ) :
    Buddy.coalesce p n s p c = (s, p, c) := by
  cases n with
  | zero => rfl
  | succ n =>
    rw [Buddy.coalesce]
    by_cases hlt : c < maxOrder
    · have hstop : s.numPages ≤ p ^^^ 2 ^ c ∨ s.allocated (p ^^^ 2 ^ c) ≠ 0 ∨
          s.order (p ^^^ 2 ^ c) ≠ c := by
        by_contra hpass
        push Not at hpass
        exact hbuddy hlt (h.buddy_free hlt hpass.2.1 hpass.2.2)
      rw [if_pos hlt]
      simp only [if_pos hstop]
    · rw [if_neg hlt]

theorem Inv.freePages_eq (h : s.Inv top free out []) (hb : (p, k) ∈ out) {j : ℕ}
    (hj : j ≤ maxOrder) : s.freePages (some p) j =
      (Buddy.coalesce p maxOrder (s.setAllocated p 0) p j).1.listAdd
        (Buddy.coalesce p maxOrder (s.setAllocated p 0) p j).2.1
        (Buddy.coalesce p maxOrder (s.setAllocated p 0) p j).2.2 := by
  have halloc : s.allocated p ≠ 0 := (h.allocated p).mpr ⟨k, hb⟩
  unfold Buddy.freePages
  dsimp only
  rw [if_neg (by omega)]

/-- Freeing restores the lists if no larger block can be built. -/
theorem Inv.restored {l : List ℕ} (hc : c ≤ maxOrder) (hkc : k ≤ c) (hl : free c = p :: l)
    (hd : 2 ^ c ∣ p) (htop : top ≤ s'.numPages)
    (h' : s'.Inv top (splitLists (update free c l) p k c) ((p, k) :: out) [])
    (hbuddy : c < maxOrder → p ^^^ 2 ^ c ∉ free c) :
    (s'.freePages (some p) k).Inv top free out [] := by
  have hret := h'.retire (mem_cons_self ..)
  rw [erase_cons_head] at hret
  obtain ⟨s1, hco, hinv, hord, -⟩ := hret.coalesce_back hc hd (maxOrder - (c - k)) (c - k) htop
    (by omega) (h'.outOrder (p, k) (mem_cons_self ..)).2
  have hstop : c < maxOrder → p ^^^ 2 ^ c ∉ update free c l c := by
    intro hlt hm
    rw [update_self] at hm
    exact hbuddy hlt (by rw [hl]; exact mem_cons_of_mem _ hm)
  rw [hinv.coalesce_stops hstop, show c - k + (maxOrder - (c - k)) = maxOrder by omega] at hco
  have hgive := hinv.give hc hord
  rw [update_self, update_idem, ← hl, update_eq_self] at hgive
  rw [h'.freePages_eq (mem_cons_self ..) (hkc.trans hc), hco]
  exact hgive

/-- Two free buddies do not both stay on their list. -/
theorem Inv.not_restored (hlt : c < maxOrder) (hd : 2 ^ c ∣ p) (htop : top ≤ s'.numPages)
    (h' : s'.Inv top free' ((p, k) :: out) []) :
    ∃ free'', (s'.freePages (some p) k).Inv top free'' out [] ∧
      ¬ (p ∈ free'' c ∧ p ^^^ 2 ^ c ∈ free'' c) := by
  obtain ⟨f, q, m, s1, hco, hinv⟩ := h'.freePages_coalesced (mem_cons_self ..)
  rw [erase_cons_head] at hinv
  refine ⟨_, hinv, fun ⟨hp, hbuddy⟩ => ?_⟩
  -- the block around `p` is `(p, c)` itself, and then the loop has seen its buddy
  have hq : q ∈ update f m (q :: f m) m := by
    rw [update_self]
    exact mem_cons_self ..
  have heq := hinv.tiling.eq_of_overlap (mem_append_right _ (mem_freeBlocks.mpr ⟨hlt.le, hp⟩))
    (mem_append_right _ (mem_freeBlocks.mpr ⟨hco.le, hq⟩)) (covers_start (p, c))
    (hco.grows.2 p (covers_start (p, k)))
  obtain ⟨rfl, rfl⟩ := Prod.mk.inj heq
  rcases mem_update_cons.mp hbuddy with ⟨-, he⟩ | hf
  · exact buddy_ne p c he
  · exact hco.stop htop hlt hd hf

/-- The block that `alloc_pages` would split up for this order has no free buddy. -/
def PutsBack (s : Buddy) (order : ℕ) : Prop :=
  ∀ c p l, order ≤ c → c < maxOrder → (∀ j, order ≤ j → j < c → s.freeList j = []) →
    s.freeList c = p :: l → p ^^^ 2 ^ c ∉ l

theorem Inv.listEmpty_iff (h : s.Inv top free out []) (hk : k ≤ maxOrder) :
    s.listEmpty k ↔ free k = [] := by
  constructor
  · intro hempty
    by_contra hne
    obtain ⟨p, l, hl⟩ := exists_cons_of_ne_nil hne
    have hc := (h.ring k hk).chain
    rw [hl, map_cons, cons_append, isChain_cons_cons] at hc
    unfold listEmpty at hempty
    rw [hc.1.1] at hempty
    exact nomatch hempty
  · intro hf
    have hr := h.ring k hk
    rw [hf] at hr
    simpa [listEmpty] using hr.next_mem

/-- **A block is freed right after it was allocated**: the same blocks as before are free and
allocated, exactly if the block it was split off from has no free buddy. -/
theorem Inv.freed_again (h : s.Inv top free out []) (htop : top ≤ s.numPages) {order flags : ℕ}
    {page : ℕ} (hpage : (s.allocPages order flags).1 = some page) :
    SameBlocks s ((s.allocPages order flags).2.freePages (some page) order) ↔ s.PutsBack order := by
  have hk : order ≤ maxOrder := by
    by_contra hgt
    unfold Buddy.allocPages at hpage
    rw [if_pos (by omega)] at hpage
    exact nomatch hpage
  rcases s.allocPages_cases flags hk with ⟨-, he⟩ | ⟨c, hle, hc, hne, hbelow, he⟩
  · rw [he] at hpage
    exact nomatch hpage
  obtain ⟨p, l, s', hl, harena, hinv, htake⟩ := h.takeBlock_lists flags hle hc hne
  rw [he, htake] at hpage ⊢
  split at hpage
  · exact nomatch hpage
  rename_i hflags
  rw [if_neg hflags]
  obtain rfl : p = page := Option.some.inj hpage
  have hmem : p ∈ free c := by
    rw [hl]
    exact mem_cons_self ..
  have hd : 2 ^ c ∣ p :=
    h.tiling.aligned (p, c) (mem_append_right _ (mem_freeBlocks.mpr ⟨hc, hmem⟩))
  have htop' : top ≤ s'.numPages := harena.2 ▸ htop
  have harena' : SameArena s (s'.freePages (some p) order) :=
    harena.trans (sameArena_freePages s' (some p) order)
  have hlist : ∀ j, j ≤ maxOrder → s.freeList j = free j := fun j hj => h.freeList_eq htop hj
  constructor
  · intro hsame c' q l' hle' hlt' hbelow' hl' hq
    rw [hlist c' hlt'.le] at hl'
    -- the lists below `c` are empty, those below `c'` too
    obtain rfl : c' = c := by
      rcases Nat.lt_trichotomy c' c with hlt | heq | hgt
      · have hnil := (h.listEmpty_iff hlt'.le).mp (hbelow c' hle' hlt)
        rw [hnil] at hl'
        exact nomatch hl'
      · exact heq
      · have hnil := hbelow' c hle hgt
        rw [hlist c hc, hl] at hnil
        exact nomatch hnil
    obtain ⟨rfl, rfl⟩ := cons.inj (hl.symm.trans hl')
    obtain ⟨f, hinv', hboth⟩ := hinv.not_restored hlt' hd htop'
    have hfree := (h.sameBlocks_iff hinv' htop harena').mp hsame
    have hbuddy : p ^^^ 2 ^ c' ∈ free c' := by
      rw [hl]
      exact mem_cons_of_mem _ hq
    exact hboth ⟨(mem_freeBlocks.mp ((hfree (p, c')).mpr (mem_freeBlocks.mpr ⟨hc, hmem⟩))).2,
      (mem_freeBlocks.mp ((hfree (_, c')).mpr (mem_freeBlocks.mpr ⟨hc, hbuddy⟩))).2⟩
  · intro hback
    have hinv' : (s'.freePages (some p) order).Inv top free out [] := by
      refine hinv.restored hc hle hl hd htop' fun hlt hm => ?_
      rw [hl] at hm
      rcases mem_cons.mp hm with heq | hm
      · exact buddy_ne p c heq
      · refine hback c p l hle hlt (fun j hj hjc => ?_) ((hlist c hc).trans hl) hm
        rw [hlist j (hjc.le.trans hc)]
        exact (h.listEmpty_iff (hjc.le.trans hc)).mp (hbelow j hj hjc)
    exact (h.sameBlocks_iff hinv' htop harena').mpr fun _ => Iff.rfl

/-- A super page has no buddy. -/
theorem putsBack_maxOrder (s : Buddy) : s.PutsBack maxOrder :=
  fun c _ _ hle hlt => absurd hlt (by omega)

/-- **A request that fails leaves the blocks as they were**, also the super page that is not
aligned and goes back at once. -/
theorem Inv.sameBlocks_of_none (h : s.Inv top free out []) (htop : top ≤ s.numPages) {order flags : ℕ}
    (horder : order = maxOrder ∨ flags = 0) (hnone : (s.allocPages order flags).1 = none) :
    SameBlocks s (s.allocPages order flags).2 := by
  by_cases hk : order ≤ maxOrder
  swap
  · unfold Buddy.allocPages
    rw [if_pos (by omega)]
    exact .refl s
  rcases s.allocPages_cases flags hk with ⟨-, he⟩ | ⟨c, hle, hc, hne, -, he⟩
  · rw [he]
    exact .refl s
  obtain ⟨p, l, s', hl, harena, hinv, htake⟩ := h.takeBlock_lists flags hle hc hne
  rw [he, htake] at hnone ⊢
  split at hnone
  swap
  · exact nomatch hnone
  rename_i hflags
  rw [if_pos hflags]
  obtain rfl : order = maxOrder := horder.resolve_right fun h0 => by
    rw [h0] at hflags
    exact absurd hflags.1 (by decide)
  have hmem : p ∈ free c := by
    rw [hl]
    exact mem_cons_self ..
  have hd : 2 ^ c ∣ p :=
    h.tiling.aligned (p, c) (mem_append_right _ (mem_freeBlocks.mpr ⟨hc, hmem⟩))
  have hinv' := hinv.restored hc hle hl hd (harena.2 ▸ htop) fun hlt => absurd hlt (by omega)
  exact (h.sameBlocks_iff hinv' htop
    (harena.trans (sameArena_freePages s' (some p) maxOrder))).mpr fun _ => Iff.rfl

/-! ### Freeing the head of a block with order `0` -/

/-- The pages in the middle of the block, of its lower half, and so on down, have the order fields
of blocks that start there. -/
def Halved (s : Buddy) (p k : ℕ) : Prop := ∀ j, j < k → s.order (p + 2 ^ j) = j

/-- `list_del` of these pages changes no link. -/
def Unlinked (s : Buddy) (p k : ℕ) : Prop := ∀ j, j < k → s.listDel (p + 2 ^ j) = s

theorem covers_middle {j : ℕ} (hj : j < k) : Covers (p, k) (p + 2 ^ j) :=
  ⟨Nat.le_add_right .., Nat.add_lt_add_left (Nat.pow_lt_pow_right (by omega) hj) p⟩

theorem middle_ne (p j : ℕ) : p + 2 ^ j ≠ p := by
  have hpos : 0 < 2 ^ j := by positivity
  omega

/-- A round that takes the page in the middle for a free buddy. -/
theorem coalesce_round {j n : ℕ} (hj : j < maxOrder) (hd : 2 ^ (j + 1) ∣ p)
    (hroom : p + 2 ^ j < s.numPages) (ha : s.allocated (p + 2 ^ j) = 0)
    (ho : s.order (p + 2 ^ j) = j) (hdel : s.listDel (p + 2 ^ j) = s) :
    coalesce p (n + 1) s p j = coalesce p n (s.setOrder p (j + 1)) p (j + 1) := by
  have hbuddy : p ^^^ 2 ^ j = p + 2 ^ j := buddy_of_dvd hd
  have hpass : ¬ (s.numPages ≤ p + 2 ^ j ∨ s.allocated (p + 2 ^ j) ≠ 0 ∨ s.order (p + 2 ^ j) ≠ j) := by
    push Not
    exact ⟨hroom, ha, ho⟩
  have hlower : (if p + 2 ^ j < p then p + 2 ^ j else p) = p := if_neg (by omega)
  rw [coalesce, if_pos hj, hbuddy]
  simp only [if_neg hpass]
  rw [hlower, hdel]

/-- The loop from order `j` up to order `j + d + 1`. -/
theorem coalesce_halves {n : ℕ} (d : ℕ) : ∀ {s : Buddy} {j : ℕ}, j + d < maxOrder →
    2 ^ (j + d + 1) ∣ p →
    (∀ i, j ≤ i → i ≤ j + d → p + 2 ^ i < s.numPages ∧ s.allocated (p + 2 ^ i) = 0 ∧
      s.order (p + 2 ^ i) = i ∧ s.listDel (p + 2 ^ i) = s) →
    coalesce p (d + 1 + n) s p j = coalesce p n (s.setOrder p (j + d + 1)) p (j + d + 1) := by
  induction d with
  | zero =>
    intro s j hj hd hpages
    obtain ⟨hroom, ha, ho, hdel⟩ := hpages j (le_refl j) (le_refl j)
    rw [show 0 + 1 + n = n + 1 by omega]
    exact coalesce_round hj hd hroom ha ho hdel
  | succ d ih =>
    intro s j hj hd hpages
    obtain ⟨hroom, ha, ho, hdel⟩ := hpages j (le_refl j) (by omega)
    have hround := coalesce_round (n := d + 1 + n) (by omega) ((pow_dvd_pow 2 (by omega)).trans hd)
      hroom ha ho hdel
    have hrest := ih (s := s.setOrder p (j + 1)) (j := j + 1) (by omega)
      ((pow_dvd_pow 2 (by omega)).trans hd) fun i hi hi' => by
        obtain ⟨hroom, ha, ho, hdel⟩ := hpages i (by omega) (by omega)
        refine ⟨hroom, ha, (update_of_ne (middle_ne p i) _ _).trans ho, ?_⟩
        exact congrArg (fun t : Buddy => t.setOrder p (j + 1)) hdel
    rw [show d + 1 + 1 + n = d + 1 + n + 1 by omega, hround, hrest]
    have hset : (s.setOrder p (j + 1)).setOrder p (j + 1 + d + 1) = s.setOrder p (j + 1 + d + 1) := by
      unfold setOrder
      rw [update_idem]
    rw [hset, show j + 1 + d + 1 = j + (d + 1) + 1 by omega]

/-- Inside an outstanding block there is no other. -/
theorem Inv.allocated_inside (h : s.Inv top free out []) (hb : (p, k) ∈ out) {x : ℕ}
    (hx : Covers (p, k) x) (hne : x ≠ p) : s.allocated x = 0 := by
  by_contra ha
  obtain ⟨i, hi⟩ := (h.allocated x).mp ha
  have heq := h.tiling.eq_of_overlap (mem_append_left _ hi) (mem_append_left _ hb)
    (covers_start (x, i)) hx
  exact hne (congrArg Prod.fst heq)

theorem Inv.lt_numPages_of_covers (h : s.Inv top free out []) (htop : top ≤ s.numPages)
    (hb : (p, k) ∈ out) {x : ℕ} (hx : Covers (p, k) x) : x < s.numPages :=
  ((h.tiling.cover x).mpr ⟨(p, k), mem_append_left _ hb, hx⟩).trans_le htop

/-- The loop from order `0` up to order `m` within the block. -/
theorem Inv.coalesce_head (h : s.Inv top free out []) (htop : top ≤ s.numPages) (hb : (p, k) ∈ out)
    {m : ℕ} (hm : m ≤ k) (hhalf : ∀ j, j < m → s.order (p + 2 ^ j) = j) (hun : s.Unlinked p k) :
    Buddy.coalesce p maxOrder (s.setAllocated p 0) p 0 =
      Buddy.coalesce p (maxOrder - m) (if m = 0 then s.setAllocated p 0
        else (s.setAllocated p 0).setOrder p m) p m := by
  have hk := (h.outOrder _ hb).1
  dsimp only at hk
  have hal : 2 ^ k ∣ p := h.tiling.aligned (p, k) (mem_append_left _ hb)
  cases m with
  | zero => rfl
  | succ m =>
    have hloop := coalesce_halves (p := p) (n := maxOrder - (m + 1)) m (s := s.setAllocated p 0) (j := 0)
      (by omega) ((pow_dvd_pow 2 (by omega)).trans hal) fun i _ hi => by
        have hcov : Covers (p, k) (p + 2 ^ i) := covers_middle (by omega)
        refine ⟨h.lt_numPages_of_covers htop hb hcov, ?_, hhalf i (by omega), ?_⟩
        · exact (update_of_ne (middle_ne p i) _ _).trans
            (h.allocated_inside hb hcov (middle_ne p i))
        · exact congrArg (fun t : Buddy => t.setAllocated p 0) (hun i (by omega))
    rw [Nat.zero_add, show m + 1 + (maxOrder - (m + 1)) = maxOrder by omega] at hloop
    rw [hloop, if_neg (by omega)]

/-- Enough rounds are enough. -/
theorem coalesce_rounds (baseIdx n : ℕ) : ∀ (m : ℕ) (s : Buddy) (page order : ℕ),
    maxOrder ≤ order + n → maxOrder ≤ order + m →
    coalesce baseIdx n s page order = coalesce baseIdx m s page order := by
  induction n with
  | zero =>
    intro m s page order hn _
    cases m with
    | zero => rfl
    | succ m => rw [coalesce, coalesce, if_neg (by omega)]
  | succ n ih =>
    intro m s page order _ hm
    cases m with
    | zero => rw [coalesce, coalesce, if_neg (by omega)]
    | succ m =>
      rw [coalesce, coalesce]
      split
      · dsimp only
        split
        · rfl
        · exact ih m _ _ _ (by omega) (by omega)
      · rfl

section

variable (h : s.Inv top free out []) (htop : top ≤ s.numPages) (hb : (p, k) ∈ out)
include h htop hb

/-- **The whole block is freed with order `0`** if its pages have the fields of nested halves. -/
theorem Inv.freePages_head (hhalf : s.Halved p k) (hun : s.Unlinked p k) :
    s.freePages (some p) 0 = s.freePages (some p) k := by
  obtain ⟨hk, ho⟩ := h.outOrder _ hb
  dsimp only at hk ho
  have hself : (if k = 0 then s.setAllocated p 0 else (s.setAllocated p 0).setOrder p k)
      = s.setAllocated p 0 := by
    split
    · rfl
    · unfold Buddy.setOrder Buddy.setAllocated
      dsimp only
      conv_lhs => rw [← ho]
      rw [update_eq_self]
  rw [h.freePages_eq hb (Nat.zero_le _), h.freePages_eq hb hk,
    h.coalesce_head htop hb (le_refl k) hhalf hun, hself,
    coalesce_rounds p (maxOrder - k) maxOrder _ _ _ (by omega) (by omega)]

/-- The lists after the loop has stopped within the block. -/
theorem Inv.freeList_head
    {m : ℕ} (hm : m < k) (hhalf : ∀ j, j < m → s.order (p + 2 ^ j) = j) (hun : s.Unlinked p k)
    (hwrong : s.order (p + 2 ^ m) ≠ m) {j : ℕ} (hj : j ≤ maxOrder) :
    (s.freePages (some p) 0).freeList j = update free m (p :: free m) j := by
  have hk := (h.outOrder _ hb).1
  dsimp only at hk
  have hal : 2 ^ k ∣ p := h.tiling.aligned (p, k) (mem_append_left _ hb)
  set s1 := if m = 0 then s.setAllocated p 0 else (s.setAllocated p 0).setOrder p m with hs1
  -- the loop stops at the first wrong field
  have horder : s1.order (p + 2 ^ m) ≠ m := by
    rw [hs1]
    split
    · exact hwrong
    · exact fun he => hwrong ((update_of_ne (middle_ne p m) _ _).symm.trans he)
  have hstop : Buddy.coalesce p (maxOrder - m) s1 p m = (s1, p, m) := by
    rw [show maxOrder - m = maxOrder - m - 1 + 1 by omega, Buddy.coalesce, if_pos (by omega),
      buddy_of_dvd ((pow_dvd_pow 2 (by omega)).trans hal)]
    exact if_pos (.inr (.inr horder))
  have hfree : s.freePages (some p) 0 = s1.listAdd p m := by
    rw [h.freePages_eq hb (Nat.zero_le _), h.coalesce_head htop hb hm.le hhalf hun, ← hs1, hstop]
  have hret := h.retire hb
  have hcov := covers_start (p, k)
  have hinv : s1.Inv top free (out.erase (p, k)) [(p, k)] := by
    rw [hs1]
    split
    · exact hret
    · exact hret.setOrder (fun i hi => hret.not_free (mem_cons_self ..) hcov hi)
        (fun b hb' => hret.out_ne (mem_cons_self ..) hcov hb')
        ((pow_dvd_pow 2 hm.le).trans hal)
  have hpages : s1.numPages = s.numPages := by
    rw [hs1]
    split <;> rfl
  rw [hfree]
  refine freeList_of_ring (hinv.ring_listAdd (by omega)
    (fun i hi => hinv.not_free (mem_cons_self ..) hcov hi) hj) fun i hi => ?_
  have hlt : i < top := by
    rcases mem_update_cons.mp hi with ⟨-, rfl⟩ | hi
    · exact (h.tiling.cover i).mpr ⟨(i, k), mem_append_left _ hb, covers_start (i, k)⟩
    · exact h.lt_top hj hi
  exact hlt.trans_le (htop.trans_eq hpages.symm)

/-- **Pages behind the first wrong field are lost.** -/
theorem Inv.not_freePage_head (hun : s.Unlinked p k) (hhalf : ¬ s.Halved p k) :
    ∃ x, Covers (p, k) x ∧ ¬ (s.freePages (some p) 0).FreePage x := by
  have hex : ∃ m, m < k ∧ s.order (p + 2 ^ m) ≠ m := by
    unfold Halved at hhalf
    push Not at hhalf
    exact hhalf
  obtain ⟨hm, hwrong⟩ := Nat.find_spec hex
  set m := Nat.find hex
  have hbelow : ∀ j, j < m → s.order (p + 2 ^ j) = j := fun j hj => by
    by_contra hne
    exact Nat.find_min hex hj ⟨hj.trans hm, hne⟩
  have hcov : Covers (p, k) (p + 2 ^ m) := covers_middle hm
  refine ⟨p + 2 ^ m, hcov, fun ⟨⟨i, j⟩, hmem, hx⟩ => ?_⟩
  obtain ⟨hj, hi⟩ := mem_freeBlocks.mp hmem
  dsimp only at hj hi
  rw [h.freeList_head htop hb hm hbelow hun hwrong hj] at hi
  rcases mem_update_cons.mp hi with ⟨rfl, rfl⟩ | hi
  · exact absurd hx.2 (by dsimp only; omega)
  · exact h.apart_out hb hcov hj hi hx

end

end Buddy

end Mcertikos
