/-
Runs of the buddy allocator: merging, memory ranges, and its own metadata.

`free_pages` computes the buddy from the index of the page it was called with, also after the
block has been absorbed by its lower buddy.  From then on no buddy passes the test, and the
merging stops although the next buddy may be free.

* `merged_of_run` — if each `free_pages` of a run finds the larger block around it still in use
  where this matters (`Mergeable`), no two free blocks are ever buddies, and once everything is
  freed the lists are as after `pmm_init`;
* `refused_superPage` — a block that is split off and then refused, because it is no aligned super
  page, is put back: the free pages are the same as before;
* `pmmInit_sound` — the loop of `pmm_init` ends, with sound blocks, exactly if the sum in its
  condition cannot wrap;
* `metadata_of_run` — the super pages that hold `page_array` are on the free list as well, at its
  end: they are not handed out as long as every `alloc_pages` finds another block.
-/
import Mcertikos.Pmm.Buddy

namespace Mcertikos

open List Relation Function Ring DyadicBlocks

namespace Buddy

/-- The pages on the list of order `k`, first to last. -/
def freeList (s : Buddy) (k : ℕ) : List ℕ :=
  (walk s.links.next (.head k) s.numPages (s.links.next (.head k))).map ListNode.entry

variable {s : Buddy} {top : ℕ} {free : ℕ → List ℕ} {out : List DyadicBlocks.Block} {p k : ℕ}

theorem freeList_of_ring {l : List ℕ} (hr : IsRing s.links (.head k) (l.map .page))
    (hlt : ∀ i ∈ l, i < s.numPages) : s.freeList k = l := by
  have hnd : l.Nodup := (nodup_cons.mp hr.nodup).2.of_map _
  have hsub : l ⊆ range s.numPages := fun i hi => mem_range.mpr (hlt i hi)
  have hle := (subperm_of_subset hnd hsub).length_le
  rw [length_range] at hle
  unfold freeList
  rw [hr.walk (by rwa [length_map]), List.map_map]
  exact map_id _

theorem Inv.freeList_eq (h : s.Inv top free out []) (htop : top ≤ s.numPages) (hk : k ≤ maxOrder) :
    s.freeList k = free k :=
  freeList_of_ring (h.ring k hk) fun _ hi => (h.lt_top hk hi).trans_le htop

theorem Inv.mem_freeList (h : s.Inv top free out []) (htop : top ≤ s.numPages)
    (b : DyadicBlocks.Block) : b ∈ freeBlocks s.freeList ↔ b ∈ freeBlocks free := by
  rw [mem_freeBlocks, mem_freeBlocks]
  refine and_congr_right fun hk => ?_
  rw [h.freeList_eq htop hk]

/-- The page is in a block on the free lists. -/
def FreePage (s : Buddy) (x : ℕ) : Prop := ∃ b ∈ freeBlocks s.freeList, Covers b x

/-- The free pages are those of no outstanding block. -/
theorem Inv.freePage_iff (h : s.Inv top free out []) (htop : top ≤ s.numPages) (x : ℕ) :
    s.FreePage x ↔ x < top ∧ ∀ b ∈ out, ¬ Covers b x := by
  have hcover := h.tiling.cover x
  constructor
  · rintro ⟨b, hb, hx⟩
    have hb' := (h.mem_freeList htop b).mp hb
    refine ⟨hcover.mpr ⟨b, mem_append_right _ hb', hx⟩, fun c hc hcx => ?_⟩
    exact (pairwise_append.mp h.tiling.apart).2.2 c hc b hb' x hcx hx
  · rintro ⟨hx, hout⟩
    obtain ⟨b, hb, hbx⟩ := hcover.mp hx
    rcases mem_append.mp hb with hb | hb
    · exact absurd hbx (hout b hb)
    · exact ⟨b, (h.mem_freeList htop b).mpr hb, hbx⟩

/-! ### Buddies on the free lists -/

/-- No two free blocks of an order below the largest are buddies. -/
def NoBuddies (free : ℕ → List ℕ) : Prop :=
  ∀ k, k < maxOrder → ∀ i ∈ free k, i ^^^ 2 ^ k ∉ free k

variable {free' : ℕ → List ℕ} {x n : ℕ}

theorem NoBuddies.mono (h : NoBuddies free)
    (hsub : ∀ j, ∀ i ∈ free' j, i ∈ free j) : NoBuddies free' :=
  fun k hk i hi hb => h k hk i (hsub k i hi) (hsub k _ hb)

/-- A block whose buddy is not free is put on its list. -/
theorem NoBuddies.add (h : NoBuddies free) (hp : k < maxOrder → p ^^^ 2 ^ k ∉ free k) :
    NoBuddies (update free k (p :: free k)) := by
  intro j hj i hi hb
  rcases mem_update_cons.mp hi with ⟨rfl, rfl⟩ | hold
  · rcases mem_update_cons.mp hb with ⟨-, he⟩ | hold'
    · exact buddy_ne i j he
    · exact hp hj hold'
  · rcases mem_update_cons.mp hb with ⟨rfl, he⟩ | hold'
    · rw [← he, buddy_buddy] at hp
      exact hp hj hold
    · exact h j hj i hold hold'

/-- Splitting leaves no buddies: the buddy of every new block contains the page handed out. -/
theorem NoBuddies.split (h : NoBuddies free) (hoff : SplitOff free p free')
    (hp : ∀ j, j ≤ maxOrder → p ∉ free' j) : NoBuddies free' := by
  intro j hj i hi hb
  rcases hoff.1 j i hi with hold | ⟨rfl, hd⟩
  · rcases hoff.1 j _ hb with hold' | ⟨he, hd⟩
    · exact h j hj i hold hold'
    · have hip : i = p := by
        rw [← buddy_buddy i j, he, ← buddy_of_dvd hd, buddy_buddy]
      exact hp j hj.le (hip ▸ hi)
  · rw [← buddy_of_dvd hd, buddy_buddy] at hb
    exact hp j hj.le hb

/-- When block `(p, k)` is freed and `p` is not the first page of the block of order `j + 1`
around it, another outstanding block lies in the block of order `j + 2`. -/
def Mergeable (out : List DyadicBlocks.Block) (p k : ℕ) : Prop :=
  ∀ j, k ≤ j → j + 2 ≤ maxOrder → ¬ 2 ^ (j + 1) ∣ p →
    ∃ b ∈ out.erase (p, k), ∃ x, Covers b x ∧ Covers (around p (j + 2)) x

/-- An outstanding block and a free one share no page. -/
theorem Inv.apart_out (h : s.Inv top free out []) {b : DyadicBlocks.Block} (hb : b ∈ out)
    (hx : Covers b x) (hk : k ≤ maxOrder) (hp : p ∈ free k) : ¬ Covers (p, k) x :=
  (pairwise_append.mp h.tiling.apart).2.2 b hb (p, k) (mem_freeBlocks.mpr ⟨hk, hp⟩) x hx

/-- **Merging is complete** when a mergeable block is freed. -/
theorem Inv.noBuddies_freePages (h : s.Inv top free out []) (htop : top ≤ s.numPages)
    (hno : NoBuddies free) (hb : (p, k) ∈ out) (hm : Mergeable out p k) :
    ∃ free', (s.freePages (some p) k).Inv top free' (out.erase (p, k)) [] ∧ NoBuddies free' := by
  obtain ⟨free', q, m, s1, hc, hinv⟩ := h.freePages_coalesced hb
  refine ⟨_, hinv, (hno.mono hc.sub).add fun hlt hbuddy => ?_⟩
  by_cases hd : 2 ^ m ∣ p
  · exact hc.stop htop hlt hd hbuddy
  -- the block was absorbed by its lower buddy; the other half of the next block is in use
  have hal : 2 ^ k ∣ p := h.tiling.aligned (p, k) (mem_append_left _ hb)
  have hkm : k < m := lt_of_le_of_ne hc.grows.1 fun he => hd (he ▸ hal)
  obtain ⟨b, hbout, x, hxb, hxa⟩ := hm (m - 1) (by omega) (by omega)
    (by rwa [Nat.sub_add_cancel (by omega)])
  rw [show m - 1 + 2 = m + 1 by omega] at hxa
  have hq : 2 ^ m ∣ q := hc.inv.tiling.aligned (q, m) (mem_cons_self ..)
  rcases covers_buddies hq (hc.grows.2 p (covers_start (p, k))) hxa with hx | hx
  · have hapart := (pairwise_cons.mp hc.inv.tiling.apart).1 b (mem_append_left _ hbout)
    exact hapart x hx hxb
  · refine hinv.apart_out hbout hxb hc.le (p := q ^^^ 2 ^ m) ?_ hx
    rw [update_self]
    exact mem_cons_of_mem _ hbuddy

/-- In a range without outstanding blocks there is one free block. -/
theorem Inv.free_range (h : s.Inv top free out []) (hno : NoBuddies free)
    (hk : k ≤ maxOrder) (hx : x < top)
    (hout : ∀ b ∈ out, ∀ y, Covers b y → ¬ Covers (around x k) y) :
    ∃ j i, k ≤ j ∧ j ≤ maxOrder ∧ i ∈ free j ∧ Covers (i, j) x := by
  have hF : ∀ i j, j < maxOrder → (i, j) ∈ freeBlocks free →
      (i ^^^ 2 ^ j, j) ∉ freeBlocks free := by
    intro i j hj hi hb
    exact hno j hj i (mem_freeBlocks.mp hi).2 (mem_freeBlocks.mp hb).2
  obtain ⟨⟨i, j⟩, hb, hkj, hcov⟩ := h.tiling.exists_block hF k hk (around x k).1 (around_dvd x k)
    (around_room ((pow_dvd_pow 2 hk).trans h.whole) hx) (fun b hb y hy hby => by
      rcases mem_append.mp hb with hb' | hb'
      · exact absurd hy (hout b hb' y hby)
      · exact hb')
  have hx' : Covers (i, j) x :=
    covers_of_overlap (c := around x k) (h.tiling.aligned _ hb) (around_dvd x k) hkj hcov
      (covers_start (around x k)) x (covers_around x k)
  rcases mem_append.mp hb with hb' | hb'
  · exact absurd (covers_start (around x k)) (hout _ hb' _ hcov)
  · exact ⟨j, i, hkj, (mem_freeBlocks.mp hb').1, (mem_freeBlocks.mp hb').2, hx'⟩

/-- A block that was free as a part of block `(p, c)` is mergeable: the buddy of the whole is in
use. -/
theorem Inv.mergeable (h : s.Inv top free out []) (hno : NoBuddies free) {c : ℕ}
    (hc : c ≤ maxOrder) (hp : p ∈ free c) (k : ℕ) : Mergeable ((p, k) :: out) p k := by
  intro j hkj hj hd
  rw [erase_cons_head]
  by_contra hnone
  push Not at hnone
  have hal : 2 ^ c ∣ p :=
    h.tiling.aligned (p, c) (mem_append_right _ (mem_freeBlocks.mpr ⟨hc, hp⟩))
  have hcj : c ≤ j := by
    by_contra hlt
    exact hd ((pow_dvd_pow 2 (by omega)).trans hal)
  obtain ⟨m, i, hm, hm', hi, hcov⟩ := h.free_range hno hj (h.lt_top hc hp)
    fun b hb y hy hya => hnone b hb y hy hya
  have heq := h.tiling.eq_of_overlap (mem_append_right _ (mem_freeBlocks.mpr ⟨hm', hi⟩))
    (mem_append_right _ (mem_freeBlocks.mpr ⟨hc, hp⟩)) hcov (covers_start (p, c))
  have := congrArg Prod.snd heq
  dsimp only at this
  omega

/-- **`alloc_pages` leaves no buddies.** -/
theorem Inv.noBuddies_allocPages (h : s.Inv top free out []) (htop : top ≤ s.numPages)
    (hno : NoBuddies free) (order flags : ℕ) :
    ∃ free', NoBuddies free' ∧ (s.allocPages order flags).2.Inv top free'
      (match (s.allocPages order flags).1 with
        | some page => (page, order) :: out
        | none => out) [] := by
  by_cases hk : order ≤ maxOrder
  swap
  · unfold Buddy.allocPages
    rw [if_pos (by omega)]
    exact ⟨free, hno, h⟩
  rcases s.allocPages_cases flags hk with ⟨-, he⟩ | ⟨curr, hle, hcurr, hne, -, he⟩
  · rw [he]
    exact ⟨free, hno, h⟩
  obtain ⟨p, l, free', s', hl, harena, hinv, hoff, htake⟩ := h.takeBlock_split flags hle hcurr hne
  have hno' : NoBuddies free' := by
    refine (hno.mono fun j i hi => mem_of_mem_update (fun x hx => ?_) hi).split hoff fun j hj =>
      hinv.not_free (mem_cons_self ..) (covers_start (p, order)) hj
    rw [hl]
    exact mem_cons_of_mem _ hx
  rw [he, htake]
  split
  · have hmem : p ∈ free curr := by
      rw [hl]
      exact mem_cons_self ..
    obtain ⟨free'', hinv', hno''⟩ := hinv.noBuddies_freePages (by rw [harena.2]; exact htop) hno'
      (mem_cons_self ..) (h.mergeable hno hcurr hmem order)
    rw [erase_cons_head] at hinv'
    exact ⟨free'', hno'', hinv'⟩
  · exact ⟨free', hno', hinv⟩

/-- Without outstanding blocks, all that is free are super pages, and these are all there are. -/
theorem Inv.all_free (h : s.Inv top free [] []) (hno : NoBuddies free) :
    (∀ k, k < maxOrder → free k = []) ∧ ∀ i, i ∈ free maxOrder ↔ 2 ^ maxOrder ∣ i ∧ i < top := by
  have hsuper : ∀ k, k ≤ maxOrder → ∀ i ∈ free k, k = maxOrder := by
    intro k hk i hi
    obtain ⟨j, i', hj, hj', hi', hcov⟩ := h.free_range hno (le_refl maxOrder) (h.lt_top hk hi) nofun
    have heq := h.tiling.eq_of_overlap (mem_append_right _ (mem_freeBlocks.mpr ⟨hk, hi⟩))
      (mem_append_right _ (mem_freeBlocks.mpr ⟨hj', hi'⟩)) (covers_start (i, k)) hcov
    have := congrArg Prod.snd heq
    dsimp only at this
    omega
  refine ⟨fun k hk => eq_nil_iff_forall_not_mem.mpr fun i hi => ?_, fun i => ⟨fun hi => ?_, ?_⟩⟩
  · exact absurd (hsuper k hk.le i hi) (by omega)
  · exact ⟨h.tiling.aligned (i, maxOrder)
      (mem_append_right _ (mem_freeBlocks.mpr ⟨le_refl _, hi⟩)), h.lt_top (le_refl _) hi⟩
  · rintro ⟨hd, hlt⟩
    obtain ⟨⟨i', k⟩, hb, hcov⟩ := (h.tiling.cover i).mp hlt
    obtain ⟨hk, hi'⟩ := mem_freeBlocks.mp hb
    obtain rfl := hsuper k hk i' hi'
    have heq := (eq_around (h.tiling.aligned _ hb) hcov).symm.trans
      (eq_around hd (covers_start (i, maxOrder)))
    obtain rfl : i' = i := congrArg Prod.fst heq
    exact hi'

/-! ### `pmm_init` -/

/-- One round of the loop of `pmm_init`. -/
def addBlock (memStart memEnd : ℕ) (s : Buddy) (addr : ℕ) : Buddy :=
  if (addr + superPageSize) % 2 ^ 32 ≤ memEnd then
    let page := (addr + 2 ^ 32 - memStart) % 2 ^ 32 / pageSize
    (s.setOrder page maxOrder).listAdd page maxOrder
  else s

/-- The loop of `pmm_init` from `addr` on, if it ends within `n` tests of its condition. -/
def initLoop (memStart memEnd : ℕ) : ℕ → Buddy → ℕ → Option Buddy
  | 0, _, _ => none
  | n + 1, s, addr =>
    if addr < memEnd then
      initLoop memStart memEnd n (addBlock memStart memEnd s addr) ((addr + superPageSize) % 2 ^ 32)
    else some s

/-- `pmm_init` ends with state `s'`. -/
def InitEnds (memStart memEnd : ℕ) (s' : Buddy) : Prop :=
  ∃ n, initLoop memStart memEnd n
    { memBase := memStart
      numPages := (memEnd - memStart) / pageSize
      allocated := fun _ => 0
      order := fun _ => 0
      links := ⟨id, id⟩ } memStart = some s'

variable {memStart memEnd : ℕ}

theorem addBlocks_succ (n : ℕ) (s : Buddy) (addr : ℕ) : addBlocks memStart memEnd (n + 1) s addr =
      if addr < memEnd then
        addBlocks memStart memEnd n (addBlock memStart memEnd s addr)
          ((addr + superPageSize) % 2 ^ 32)
      else s := rfl

/-- **The loop ends if its sums do not wrap.** -/
theorem initLoop_ends (hend : memEnd ≤ 0xFFC00000 + memStart % superPageSize) (n : ℕ) :
    ∀ (s : Buddy) (j : ℕ), memEnd ≤ memStart + superPageSize * (j + n) →
      initLoop memStart memEnd (n + 1) s (memStart + superPageSize * j) =
        some (addBlocks memStart memEnd n s (memStart + superPageSize * j)) := by
  rw [superPageSize_eq] at hend ⊢
  induction n with
  | zero =>
    intro s j hj
    rw [initLoop, if_neg (by omega)]
    rfl
  | succ n ih =>
    intro s j hj
    by_cases hlt : memStart + 0x400000 * j < memEnd
    swap
    · rw [initLoop, if_neg hlt, addBlocks_done _ _ hlt]
    have hnext : (memStart + 0x400000 * j + 0x400000) % 2 ^ 32 = memStart + 0x400000 * (j + 1) := by
      rw [Nat.mod_eq_of_lt (by omega), Nat.mul_succ, Nat.add_assoc]
    rw [initLoop, if_pos hlt, addBlocks_succ, if_pos hlt, superPageSize_eq, hnext]
    exact ih _ (j + 1) (by rwa [Nat.add_right_comm, Nat.add_assoc])

/-- **Otherwise it does not end**: the addresses run through all multiples of the block size,
shifted by the start, and all of them are below the end. -/
theorem initLoop_diverges (hend : 0xFFC00000 + memStart % superPageSize < memEnd) (n : ℕ) :
    ∀ (s : Buddy) (addr : ℕ), addr < 2 ^ 32 → addr % superPageSize = memStart % superPageSize →
      initLoop memStart memEnd n s addr = none := by
  rw [superPageSize_eq] at hend ⊢
  induction n with
  | zero => exact fun _ _ _ _ => rfl
  | succ n ih =>
    intro s addr hlt hmod
    rw [initLoop, if_pos (by omega), superPageSize_eq]
    exact ih _ _ (Nat.mod_lt _ (by norm_num)) (by omega)

theorem addBlock_setBase (b : ℕ) (s : Buddy) (addr : ℕ) :
    addBlock memStart memEnd { s with memBase := b } addr =
      { addBlock memStart memEnd s addr with memBase := b } := by
  unfold addBlock
  split <;> rfl

/-- The base address plays no role in the loop. -/
theorem addBlocks_setBase (b n : ℕ) : ∀ (s : Buddy) (addr : ℕ),
    addBlocks memStart memEnd n { s with memBase := b } addr =
      { addBlocks memStart memEnd n s addr with memBase := b } := by
  induction n with
  | zero => exact fun _ _ => rfl
  | succ n ih =>
    intro s addr
    rw [addBlocks_succ, addBlocks_succ]
    by_cases hlt : addr < memEnd
    · rw [if_pos hlt, if_pos hlt, addBlock_setBase]
      exact ih _ _
    · rw [if_neg hlt, if_neg hlt]

/-- The lists after enough rounds, also for memory that starts at address `0`. -/
theorem inv_addBlocks (hle : memStart ≤ memEnd)
    (hend : memEnd ≤ 0xFFC00000 + memStart % superPageSize)
    (hn : memEnd ≤ memStart + superPageSize * (0 + n)) :
    ∃ free, Inv { addBlocks memStart memEnd n
        ⟨memStart, (memEnd - memStart) / pageSize, fun _ => 0, fun _ => 0, ⟨id, id⟩⟩ memStart
        with memBase := 1 }
      (2 ^ maxOrder * ((memEnd - memStart) / superPageSize)) free [] [] ∧
      OnlySuperPages free ((memEnd - memStart) / superPageSize) := by
  have hempty : Inv ⟨1, (memEnd - memStart) / pageSize, fun _ => 0, fun _ => 0, ⟨id, id⟩⟩
      (2 ^ maxOrder * 0) (fun _ => []) [] [] := by
    rw [Nat.mul_zero]
    exact inv_empty one_pos
  have hloop := @Inv.addBlocks memStart memEnd hend n _ _ 0 hempty ⟨rfl, fun _ _ => rfl⟩ hle hn
  rw [Nat.mul_zero, Nat.add_zero] at hloop
  have hbase := @addBlocks_setBase memStart memEnd 1 n
    ⟨memStart, (memEnd - memStart) / pageSize, fun _ => 0, fun _ => 0, ⟨id, id⟩⟩ memStart
  rw [← hbase]
  exact hloop

theorem initLoop_mono {m : ℕ} {s s' : Buddy} {addr : ℕ}
    (h : initLoop memStart memEnd n s addr = some s') (hnm : n ≤ m) :
    initLoop memStart memEnd m s addr = some s' := by
  induction n generalizing m s addr with
  | zero => exact nomatch h
  | succ n ih =>
    obtain ⟨m, rfl⟩ : ∃ m', m = m' + 1 := ⟨m - 1, by omega⟩
    rw [initLoop] at h ⊢
    by_cases hlt : addr < memEnd
    · rw [if_pos hlt] at h ⊢
      exact ih h (by omega)
    · rwa [if_neg hlt] at h ⊢

theorem InitEnds.unique {s s' : Buddy} (h : InitEnds memStart memEnd s)
    (h' : InitEnds memStart memEnd s') : s = s' := by
  obtain ⟨n, hn⟩ := h
  obtain ⟨m, hm⟩ := h'
  have he := initLoop_mono hn (le_max_left n m)
  rw [initLoop_mono hm (le_max_right n m)] at he
  exact (Option.some.inj he).symm

/-- The free lists are complete, and their blocks are disjoint and lie in the memory. -/
structure SoundBlocks (memStart memEnd : ℕ) (s : Buddy) : Prop where
  lists : ∀ k, k ≤ maxOrder → IsRing s.links (.head k) ((s.freeList k).map .page)
  inside : ∀ k, k ≤ maxOrder → ∀ i ∈ s.freeList k,
    memStart + i * pageSize + 2 ^ k * pageSize ≤ memEnd
  pages : ∀ k, k ≤ maxOrder → ∀ i ∈ s.freeList k, i + 2 ^ k ≤ s.numPages
  disjoint : (freeBlocks s.freeList).Pairwise Apart

/-- The whole super pages have page indices. -/
theorem supers_le (n : ℕ) : 2 ^ maxOrder * (n / superPageSize) ≤ n / pageSize := by
  have hpow : 2 ^ maxOrder = 1024 := by decide
  rw [superPageSize_eq, hpow]
  unfold pageSize
  omega

theorem freeBlocks_congr {free : ℕ → List ℕ} (h : ∀ k, k ≤ maxOrder → free k = free' k) :
    freeBlocks free = freeBlocks free' :=
  flatMap_congr fun k hk => by rw [h k (Nat.lt_succ_iff.mp (mem_range.mp hk))]

theorem soundBlocks_pmmInit (hle : memStart ≤ memEnd)
    (hend : memEnd ≤ 0xFFC00000 + memStart % superPageSize) :
    SoundBlocks memStart memEnd (pmmInit memStart memEnd) := by
  have hn : memEnd ≤ memStart + superPageSize * (0 + 1024) := by
    rw [superPageSize_eq] at hend ⊢
    omega
  obtain ⟨free, hinv, hsupers⟩ := inv_addBlocks hle hend hn
  have hpages : (pmmInit memStart memEnd).numPages = (memEnd - memStart) / pageSize :=
    (sameArena_addBlocks 1024 _ _).2
  have hlist : ∀ k, k ≤ maxOrder → (pmmInit memStart memEnd).freeList k = free k := fun k hk =>
    hinv.freeList_eq (by
      refine (supers_le _).trans (le_of_eq ?_)
      exact hpages.symm) hk
  have hfit : ∀ k, k ≤ maxOrder → ∀ i ∈ (pmmInit memStart memEnd).freeList k,
      i + 2 ^ k ≤ 2 ^ maxOrder * ((memEnd - memStart) / superPageSize) := by
    intro k hk i hi
    rw [hlist k hk] at hi
    obtain rfl : k = maxOrder := by
      by_contra hne
      rw [hsupers.2 k hne] at hi
      exact absurd hi not_mem_nil
    have hal : 2 ^ maxOrder ∣ i := hinv.tiling.aligned (i, maxOrder)
      (mem_append_right _ (mem_freeBlocks.mpr ⟨hk, hi⟩))
    have hroom := around_room (hinv.whole) (hinv.lt_top hk hi)
    rwa [eq_around hal (covers_start (i, maxOrder))] at hroom
  refine ⟨fun k hk => ?_, fun k hk i hi => ?_, fun k hk i hi => ?_, ?_⟩
  · rw [hlist k hk]
    exact hinv.ring k hk
  · have hf := hfit k hk i hi
    have hsup := supers_le (memEnd - memStart)
    unfold pageSize at hsup ⊢
    generalize 2 ^ k = size at *
    omega
  · rw [hpages]
    exact (hfit k hk i hi).trans (supers_le _)
  · rw [freeBlocks_congr hlist]
    exact hinv.tiling.apart

/-- **Initialisation is sound when it ends**, and it ends exactly if the end of the memory is at
most one block below the last address of its alignment. -/
theorem pmmInit_sound (hle : memStart ≤ memEnd) (h32 : memEnd < 2 ^ 32) :
    ((∃ s, InitEnds memStart memEnd s) ↔ memEnd ≤ 0xFFC00000 + memStart % superPageSize) ∧
    ∀ s, InitEnds memStart memEnd s → SoundBlocks memStart memEnd s := by
  have hends : memEnd ≤ 0xFFC00000 + memStart % superPageSize →
      InitEnds memStart memEnd (pmmInit memStart memEnd) := by
    intro hend
    have hn : memEnd ≤ memStart + superPageSize * (0 + 1024) := by
      rw [superPageSize_eq] at hend ⊢
      omega
    have hloop := initLoop_ends hend 1024
      ⟨memStart, (memEnd - memStart) / pageSize, fun _ => 0, fun _ => 0, ⟨id, id⟩⟩ 0 hn
    rw [Nat.mul_zero, Nat.add_zero] at hloop
    exact ⟨1025, hloop⟩
  have hcond : ∀ s, InitEnds memStart memEnd s →
      memEnd ≤ 0xFFC00000 + memStart % superPageSize := by
    rintro s ⟨n, hn⟩
    by_contra hgt
    rw [initLoop_diverges (by omega) n _ memStart (by omega) rfl] at hn
    exact nomatch hn
  refine ⟨⟨fun ⟨s, hs⟩ => hcond s hs, fun h => ⟨_, hends h⟩⟩, fun s hs => ?_⟩
  rw [hs.unique (hends (hcond s hs))]
  exact soundBlocks_pmmInit hle (hcond s hs)

theorem pmmInit_sound_oneBlock :
    (∃ s, InitEnds 0 0x400000 s) ∧ ∀ s, InitEnds 0 0x400000 s → SoundBlocks 0 0x400000 s := by
  obtain ⟨hiff, hsound⟩ := pmmInit_sound (by decide : 0 ≤ 0x400000) (by decide)
  exact ⟨hiff.mpr (by decide), hsound⟩

/-- In the last 4 MB of the address space the sum wraps: the first round enters a block that
passes the end of the memory, and the loop never ends. -/
theorem pmmInit_wraps : (∀ s : Buddy, addBlock 0xFFC00000 0xFFFFFFFF s 0xFFC00000
      = (s.setOrder 0 maxOrder).listAdd 0 maxOrder) ∧
    0xFFFFFFFF < 0xFFC00000 + 2 ^ maxOrder * pageSize ∧
    ¬ ∃ s, InitEnds 0xFFC00000 0xFFFFFFFF s := by
  refine ⟨fun s => rfl, by decide, fun ⟨s, n, hn⟩ => ?_⟩
  rw [initLoop_diverges (by decide) n _ _ (by decide) rfl] at hn
  exact nomatch hn

/-! ### The metadata -/

/-- The super pages that `page_array` reaches into; `sizeof(struct page)` is 16. -/
def metaSupers (s : Buddy) : ℕ := (16 * s.numPages + superPageSize - 1) / superPageSize

/-- The first page behind the super pages with metadata. -/
def metaTop (s : Buddy) : ℕ := 2 ^ maxOrder * s.metaSupers

/-- There is a free block of at least this order outside of the super pages with metadata. -/
def HasOther (s : Buddy) (order : ℕ) : Prop :=
  ∃ k, order ≤ k ∧ k ≤ maxOrder ∧ ∃ i ∈ s.freeList k, s.metaTop ≤ i

/-- Super pages with metadata are only at the end of the list of the largest order, and nothing
else lies below `mt`. -/
structure Reserved (mt : ℕ) (free : ℕ → List ℕ) (out : List DyadicBlocks.Block) : Prop where
  small : ∀ k, k < maxOrder → ∀ i ∈ free k, mt ≤ i
  outs : ∀ b ∈ out, mt ≤ b.1
  supers : ∃ l r, free maxOrder = l ++ r ∧ (∀ i ∈ l, mt ≤ i) ∧ ∀ i ∈ r, i < mt

variable {mt : ℕ}

/-- After `pmm_init` the list is in descending order. -/
theorem reserved_of_supers (h : OnlySuperPages free n) (mt : ℕ) : Reserved mt free [] := by
  refine ⟨fun k hk i hi => ?_, nofun, ?_⟩
  · rw [h.2 k (by omega)] at hi
    exact absurd hi not_mem_nil
  rw [h.1]
  clear h
  induction n with
  | zero => exact ⟨[], [], rfl, by simp, by simp⟩
  | succ n ih =>
    obtain ⟨l, r, hl, hlow, hhigh⟩ := ih
    by_cases hmt : mt ≤ 2 ^ maxOrder * n
    · refine ⟨2 ^ maxOrder * n :: l, r, ?_, fun i hi => ?_, hhigh⟩
      · rw [range_succ, map_append, reverse_append, hl]
        rfl
      · rcases mem_cons.mp hi with rfl | hi'
        · exact hmt
        · exact hlow i hi'
    · refine ⟨[], _, rfl, by simp, fun i hi => ?_⟩
      obtain ⟨j, hj, rfl⟩ := mem_map.mp (mem_reverse.mp hi)
      have hle := Nat.mul_le_mul_left (2 ^ maxOrder) (Nat.lt_succ_iff.mp (mem_range.mp hj))
      omega

/-- A block that is freed goes to the front of its list. -/
theorem Reserved.freePages (h : s.Inv top free out []) (hr : Reserved mt free out)
    (hb : (p, k) ∈ out) :
    ∃ free', (s.freePages (some p) k).Inv top free' (out.erase (p, k)) [] ∧
      Reserved mt free' (out.erase (p, k)) := by
  obtain ⟨free', q, m, s1, hc, hinv⟩ := h.freePages_coalesced hb
  have hq : mt ≤ q := by
    rcases hc.start with rfl | ⟨j, hj, hi⟩
    · exact hr.outs _ hb
    · exact hr.small j hj q hi
  obtain ⟨l, r, hl, hlow, hhigh⟩ := hr.supers
  refine ⟨_, hinv, fun j hj i hi => ?_, fun b hb' => hr.outs b (mem_of_mem_erase hb'), ?_⟩
  · rcases mem_update_cons.mp hi with ⟨-, rfl⟩ | hi'
    · exact hq
    · exact hr.small j hj i (hc.sub j i hi')
  · by_cases hm : m = maxOrder
    · subst hm
      refine ⟨q :: l, r, ?_, ?_, hhigh⟩
      · rw [update_self, hc.supers, hl]
        rfl
      · intro i hi
        rcases mem_cons.mp hi with rfl | hi'
        · exact hq
        · exact hlow i hi'
    · rw [update_of_ne (Ne.symm hm), hc.supers]
      exact ⟨l, r, hl, hlow, hhigh⟩

/-- **The block taken is none with metadata**, if another one is free. -/
theorem Reserved.first (hr : Reserved mt free out) {order curr : ℕ} {l : List ℕ}
    (hcurr : curr ≤ maxOrder) (hl : free curr = p :: l)
    (hsmaller : ∀ k, order ≤ k → k < curr → free k = [])
    (hother : ∃ k, order ≤ k ∧ k ≤ maxOrder ∧ ∃ i ∈ free k, mt ≤ i) :
    mt ≤ p ∧ ∃ l' r, update free curr l maxOrder = l' ++ r ∧ (∀ i ∈ l', mt ≤ i) ∧
      ∀ i ∈ r, i < mt := by
  obtain ⟨l1, r, hsup, hlow, hhigh⟩ := hr.supers
  rcases Nat.lt_or_eq_of_le hcurr with hlt | rfl
  · refine ⟨hr.small curr hlt p (by rw [hl]; exact mem_cons_self ..), l1, r, ?_, hlow, hhigh⟩
    rw [update_of_ne (by omega), hsup]
  -- only super pages are left, and the first one is not among those at the end
  obtain ⟨k, hk, hk', i, hi, hmt⟩ := hother
  obtain rfl : k = maxOrder := by
    by_contra hne
    rw [hsmaller k hk (by omega)] at hi
    exact absurd hi not_mem_nil
  rw [hsup] at hl hi
  cases l1 with
  | nil => exact absurd (hhigh i hi) (Nat.not_lt.mpr hmt)
  | cons a l1 =>
    obtain ⟨rfl, rfl⟩ := cons.inj hl
    refine ⟨hlow a (mem_cons_self ..), l1, r, update_self .., ?_, hhigh⟩
    exact fun i hi => hlow i (mem_cons_of_mem _ hi)

theorem Reserved.allocPages (h : s.Inv top free out []) (hr : Reserved mt free out)
    {order : ℕ} (flags : ℕ) (hother : ∃ k, order ≤ k ∧ k ≤ maxOrder ∧ ∃ i ∈ free k, mt ≤ i) :
    ∃ free' out', out' = (match (s.allocPages order flags).1 with
        | some page => (page, order) :: out
        | none => out) ∧
      (s.allocPages order flags).2.Inv top free' out' [] ∧ Reserved mt free' out' := by
  have hk : order ≤ maxOrder := by
    obtain ⟨k, hk, hk', -⟩ := hother
    exact hk.trans hk'
  rcases s.allocPages_cases flags hk with ⟨-, he⟩ | ⟨curr, hle, hcurr, hne, hsmaller, he⟩
  · rw [he]
    exact ⟨free, out, rfl, h, hr⟩
  obtain ⟨p, l, free', s', hl, -, hinv, hoff, htake⟩ := h.takeBlock_split flags hle hcurr hne
  have hempty : ∀ j, order ≤ j → j < curr → free j = [] := by
    intro j hj hj'
    cases hf : free j with
    | nil => rfl
    | cons q l' =>
      have hc := (h.ring j (by omega)).chain
      rw [hf, map_cons, cons_append, isChain_cons_cons] at hc
      exact absurd (hc.1.1.symm.trans (hsmaller j hj hj')) (by simp)
  obtain ⟨hp, hsup⟩ := hr.first hcurr hl hempty hother
  have hr' : Reserved mt free' ((p, order) :: out) := by
    refine ⟨fun j hj i hi => ?_, fun b hb => ?_, ?_⟩
    · rcases hoff.1 j i hi with hold | ⟨rfl, -⟩
      · refine hr.small j hj i (mem_of_mem_update (fun x hx => ?_) hold)
        rw [hl]
        exact mem_cons_of_mem _ hx
      · exact hp.trans (Nat.le_add_right ..)
    · rcases mem_cons.mp hb with rfl | hb'
      · exact hp
      · exact hr.outs b hb'
    · rw [hoff.2]
      exact hsup
  rw [he, htake]
  by_cases hcheck : flags % 2 = 1 ∧ (order ≠ maxOrder ∨ s'.pageToPhys p % superPageSize ≠ 0)
  · rw [if_pos hcheck]
    obtain ⟨free'', hinv', hr''⟩ := hr'.freePages hinv (mem_cons_self ..)
    rw [erase_cons_head] at hinv' hr''
    exact ⟨free'', out, rfl, hinv', hr''⟩
  · rw [if_neg hcheck]
    exact ⟨free', _, rfl, hinv, hr'⟩

/-- The physical bytes of a block. -/
def BlockByte (s : Buddy) (b : DyadicBlocks.Block) (x : ℕ) : Prop :=
  s.memBase + b.1 * pageSize ≤ x ∧ x < s.memBase + b.1 * pageSize + 2 ^ b.2 * pageSize

/-- The physical bytes of `page_array`. -/
def MetaByte (s : Buddy) (x : ℕ) : Prop := s.memBase ≤ x ∧ x < s.memBase + 16 * s.numPages

/-- Blocks from `metaTop` on lie behind the metadata. -/
theorem not_metaByte {b : DyadicBlocks.Block} (hb : s.metaTop ≤ b.1)
    (hx : s.BlockByte b x) : ¬ s.MetaByte x := by
  have hpow : 2 ^ maxOrder = 1024 := by decide
  have hlo := hx.1
  unfold metaTop metaSupers at hb
  rw [superPageSize_eq, hpow] at hb
  unfold pageSize at hlo
  unfold MetaByte
  omega

end Buddy

namespace BuddyRun

open Buddy

/-- `alloc_pages` by some caller. -/
def alloc (σ : BuddyRun) (order flags : ℕ) : BuddyRun :=
  ⟨(σ.pmm.allocPages order flags).2,
    match (σ.pmm.allocPages order flags).1 with
    | some page => (page, order) :: σ.out
    | none => σ.out⟩

/-- `free_pages` of a block that was handed out. -/
def release (σ : BuddyRun) (page order : ℕ) : BuddyRun :=
  ⟨σ.pmm.freePages (some page) order, σ.out.erase (page, order)⟩

variable {σ σ' : BuddyRun} {memStart memEnd : ℕ}

/-- A step of the allocator keeps base and size. -/
theorem sameArena_step (h : Step σ σ') : SameArena σ.pmm σ'.pmm := by
  cases h with
  | alloc order flags => exact sameArena_allocPages _ _ _
  | free page order hout => exact sameArena_freePages _ _ _

theorem sameArena_of_run (h : ReflTransGen Step (init memStart memEnd) σ) :
    σ.pmm.memBase = memStart ∧ σ.pmm.numPages = (memEnd - memStart) / pageSize := by
  have hinit : SameArena (pmmInit memStart memEnd) σ.pmm := by
    induction h with
    | refl => exact ⟨rfl, rfl⟩
    | tail _ hstep ih => exact ih.trans (sameArena_step hstep)
  have hpmm := @sameArena_addBlocks memStart memEnd 1024
    ⟨memStart, (memEnd - memStart) / pageSize, fun _ => 0, fun _ => 0, ⟨id, id⟩⟩ memStart
  exact hpmm.trans hinit

theorem numPages_of_run (h : ReflTransGen Step (init memStart memEnd) σ) :
    2 ^ maxOrder * ((memEnd - memStart) / superPageSize) ≤ σ.pmm.numPages := by
  rw [(sameArena_of_run h).2]
  exact supers_le _

/-! ### Merging -/

/-- A call of `alloc_pages`, or a `free_pages` that finds the larger block around it in use. -/
inductive MergingStep : BuddyRun → BuddyRun → Prop
  | alloc (σ : BuddyRun) (order flags : ℕ) : MergingStep σ (σ.alloc order flags)
  | release (σ : BuddyRun) (page order : ℕ) (hout : (page, order) ∈ σ.out)
      (hm : Mergeable σ.out page order) : MergingStep σ (σ.release page order)

theorem MergingStep.step (h : MergingStep σ σ') : Step σ σ' := by
  cases h with
  | alloc order flags => exact .alloc σ order flags
  | release page order hout _ => exact .free σ page order hout

theorem noBuddies_step {top : ℕ} (htop : top ≤ σ.pmm.numPages)
    (h : ∃ free, σ.pmm.Inv top free σ.out [] ∧ NoBuddies free) (hstep : MergingStep σ σ') :
    ∃ free, σ'.pmm.Inv top free σ'.out [] ∧ NoBuddies free := by
  obtain ⟨free, h, hno⟩ := h
  cases hstep with
  | alloc order flags =>
    obtain ⟨free', hno', h'⟩ := h.noBuddies_allocPages htop hno order flags
    exact ⟨free', h', hno'⟩
  | release page order hout hm => exact h.noBuddies_freePages htop hno hout hm

theorem noBuddies_of_run (hbase : 0 < memStart) (hle : memStart ≤ memEnd)
    (hend : memEnd ≤ 0xFFC00000 + memStart % superPageSize)
    (hrun : ReflTransGen MergingStep (init memStart memEnd) σ) :
    ∃ free, σ.pmm.Inv (2 ^ maxOrder * ((memEnd - memStart) / superPageSize)) free σ.out [] ∧
      NoBuddies free := by
  induction hrun with
  | refl =>
    obtain ⟨free, h, hsupers⟩ := inv_pmmInit hbase hle hend
    refine ⟨free, h, fun k hk i hi => ?_⟩
    rw [hsupers.2 k (by omega)] at hi
    exact absurd hi not_mem_nil
  | tail hrun hstep ih =>
    have hrun' := ReflTransGen.mono (fun _ _ => MergingStep.step) _ _ hrun
    exact noBuddies_step (numPages_of_run hrun') ih hstep

/-- **Freed buddies are merged** in every run whose `free_pages` calls are mergeable: no two free
blocks are buddies, and once everything is freed, the super pages of `pmm_init` are back on their
list and one can be allocated. -/
theorem merged_of_run (hbase : 0 < memStart) (hle : memStart ≤ memEnd)
    (hend : memEnd ≤ 0xFFC00000 + memStart % superPageSize)
    (hrun : ReflTransGen MergingStep (init memStart memEnd) σ) :
    (∀ k, k ≤ maxOrder → IsRing σ.pmm.links (.head k) ((σ.pmm.freeList k).map .page)) ∧
    NoBuddies σ.pmm.freeList ∧
    (σ.out = [] →
      (∀ k, k < maxOrder → σ.pmm.freeList k = []) ∧
      (σ.pmm.freeList maxOrder).Perm ((pmmInit memStart memEnd).freeList maxOrder) ∧
      (superPageSize ≤ memEnd - memStart →
        ∃ page, (σ.pmm.allocPages maxOrder 0).1 = some page)) := by
  obtain ⟨free, h, hno⟩ := noBuddies_of_run hbase hle hend hrun
  have hrun' := ReflTransGen.mono (fun _ _ => MergingStep.step) _ _ hrun
  have hroom := supers_le (memEnd - memStart)
  have hlist : ∀ k, k ≤ maxOrder → σ.pmm.freeList k = free k := fun k hk =>
    h.freeList_eq (by rw [(sameArena_of_run hrun').2]; exact hroom) hk
  refine ⟨fun k hk => ?_, fun k hk i hi hb => ?_, fun hout => ?_⟩
  · rw [hlist k hk]
    exact h.ring k hk
  · rw [hlist k hk.le] at hi hb
    exact hno k hk i hi hb
  rw [hout] at h
  obtain ⟨hsmall, hsuper⟩ := h.all_free hno
  obtain ⟨free₀, h₀, hno₀⟩ := noBuddies_of_run hbase hle hend .refl
  have hlist₀ : (pmmInit memStart memEnd).freeList maxOrder = free₀ maxOrder :=
    h₀.freeList_eq (by rw [(sameArena_of_run .refl).2]; exact hroom) (le_refl _)
  have hnodup : ∀ {s : Buddy} {f : ℕ → List ℕ} {t : ℕ}, s.Inv t f [] [] → (f maxOrder).Nodup :=
    fun hs => (nodup_cons.mp (hs.ring maxOrder (le_refl _)).nodup).2.of_map _
  refine ⟨fun k hk => (hlist k hk.le).trans (hsmall k hk), ?_, fun hbig => ?_⟩
  · rw [hlist _ (le_refl _), hlist₀, perm_ext_iff_of_nodup (hnodup h) (hnodup h₀)]
    intro i
    rw [hsuper i, (h₀.all_free hno₀).2 i]
  · have htop : 0 < 2 ^ maxOrder * ((memEnd - memStart) / superPageSize) :=
      Nat.mul_pos (by decide) (Nat.div_pos hbig (by decide))
    have hmem : 0 ∈ free maxOrder := (hsuper 0).mpr ⟨dvd_zero _, htop⟩
    rcases σ.pmm.allocPages_cases 0 (le_refl maxOrder) with ⟨hall, -⟩ | ⟨c, hc, hc', hne, -, he⟩
    · -- the list is not empty
      have hempty := hall maxOrder (le_refl _) (le_refl _)
      have hchain := (h.ring maxOrder (le_refl _)).chain
      cases hf : free maxOrder with
      | nil =>
        rw [hf] at hmem
        exact absurd hmem not_mem_nil
      | cons q l =>
        rw [hf, map_cons, cons_append, isChain_cons_cons] at hchain
        exact absurd (hchain.1.1.symm.trans hempty) (by simp)
    · obtain ⟨p, l, free', s', -, -, -, -, htake⟩ := h.takeBlock_split 0 hc hc' hne
      rw [he, htake]
      exact ⟨p, rfl⟩

/-- A machine with one super page. -/
abbrev oneSuper : BuddyRun := init 0x1000000 0x1400000

/-- A page is taken from the only super page and given back. -/
theorem merged_of_run_onePage :
    (((init 0x1000000 0x1400000).alloc 0 0).release 0 0).out = [] ∧
    NoBuddies (((init 0x1000000 0x1400000).alloc 0 0).release 0 0).pmm.freeList ∧
    ∃ page, ((((init 0x1000000 0x1400000).alloc 0 0).release 0 0).pmm.allocPages maxOrder 0).1
      = some page := by
  have hout : (oneSuper.alloc 0 0).out = [(0, 0)] := by decide +kernel
  have hempty : ((oneSuper.alloc 0 0).release 0 0).out = [] := by
    unfold release
    rw [hout]
    rfl
  have hrun : ReflTransGen MergingStep oneSuper
      ((oneSuper.alloc 0 0).release 0 0) := by
    refine .tail (.single (.alloc _ 0 0)) (.release _ 0 0 (by rw [hout]; simp) ?_)
    exact fun j _ _ hd => absurd (dvd_zero _) hd
  obtain ⟨-, hno, hall⟩ := merged_of_run (by decide) (by decide) (by decide) hrun
  exact ⟨hempty, hno, (hall hempty).2.2 (by decide)⟩

/-- **Merging stops at the lower buddy**: two pages are taken and given back, the lower one first.
The second `free_pages` merges them, but not the result with its free buddy, so that there is no
super page any more. -/
theorem merging_stops :
    ∃ σ, ReflTransGen Step (init 0x1000000 0x1400000) σ ∧ σ.out = [] ∧
      0 ∈ σ.pmm.freeList 1 ∧ 0 ^^^ 2 ^ 1 ∈ σ.pmm.freeList 1 ∧ σ.pmm.freeList maxOrder = [] ∧
      (σ.pmm.allocPages maxOrder 0).1 = none := by
  have hout : ((oneSuper.alloc 0 0).alloc 0 0).out = [(1, 0), (0, 0)] := by
    decide +kernel
  have hout' : (((oneSuper.alloc 0 0).alloc 0 0).release 0 0).out = [(1, 0)] := by
    unfold release
    rw [hout]
    rfl
  refine ⟨(((oneSuper.alloc 0 0).alloc 0 0).release 0 0).release 1 0,
    ?_, ?_, ?_, ?_, ?_, ?_⟩
  · have htwo := ReflTransGen.tail (.single (Step.alloc oneSuper 0 0))
      (Step.alloc (oneSuper.alloc 0 0) 0 0)
    refine .tail (.tail htwo (.free _ 0 0 ?_)) (.free _ 1 0 ?_)
    · show (0, 0) ∈ ((oneSuper.alloc 0 0).alloc 0 0).out
      rw [hout]
      simp
    · show (1, 0) ∈ (((oneSuper.alloc 0 0).alloc 0 0).release 0 0).out
      rw [hout']
      simp
  · unfold release at hout' ⊢
    rw [hout']
    rfl
  · decide +kernel
  · decide +kernel
  · decide +kernel
  · decide +kernel

/-! ### Refused requests -/

/-- **A refused request loses nothing**: if `alloc_pages` returns null, with `PMM_SUPERPAGE` or
without, the free pages, the outstanding blocks and their fields are the same as before, and free
and outstanding blocks still partition the super pages of `pmm_init`. -/
theorem refused_superPage (hbase : 0 < memStart) (hle : memStart ≤ memEnd)
    (hend : memEnd ≤ 0xFFC00000 + memStart % superPageSize)
    (hrun : ReflTransGen Step (init memStart memEnd) σ) {order flags : ℕ}
    (hnull : (σ.pmm.allocPages order flags).1 = none) :
    (∀ x, (σ.alloc order flags).pmm.FreePage x ↔ σ.pmm.FreePage x) ∧
    (σ.alloc order flags).out = σ.out ∧
    (∀ i, ((σ.alloc order flags).pmm.allocated i ≠ 0 ↔ σ.pmm.allocated i ≠ 0) ∧
      (σ.pmm.allocated i ≠ 0 → (σ.alloc order flags).pmm.order i = σ.pmm.order i)) ∧
    ∃ whole : List ℕ, IsRing (pmmInit memStart memEnd).links (.head maxOrder) (whole.map .page) ∧
      (∃ free, Partitioned whole σ free) ∧ ∃ free, Partitioned whole (σ.alloc order flags) free := by
  have hrun' : ReflTransGen Step (init memStart memEnd) (σ.alloc order flags) :=
    hrun.tail (.alloc σ order flags)
  have hout : (σ.alloc order flags).out = σ.out := by
    unfold alloc
    rw [hnull]
  obtain ⟨free, h⟩ := inv_of_run hbase hle hend hrun
  obtain ⟨free', h'⟩ := inv_of_run hbase hle hend hrun'
  obtain ⟨whole, hring, -, hwhole⟩ := supers_pmmInit hbase hle hend
  refine ⟨fun x => ?_, hout, fun i => ⟨?_, fun hi => ?_⟩, whole, hring,
    ⟨free, partitioned_of_inv h hwhole⟩, free', partitioned_of_inv h' hwhole⟩
  · rw [h'.freePage_iff (numPages_of_run hrun'), h.freePage_iff (numPages_of_run hrun), hout]
  · rw [h'.allocated, h.allocated, hout]
  · -- both are the order the block was handed out with
    obtain ⟨k, hk⟩ := (h.allocated i).mp hi
    rw [(h'.outOrder (i, k) (by rw [hout]; exact hk)).2, (h.outOrder (i, k) hk).2]

/-- A page of order `3` is asked for as a super page, on a machine with one super page. -/
theorem refused_superPage_order :
    ((init 0x1000000 0x1400000).pmm.allocPages 3 1).1 = none ∧
    ∀ x, ((init 0x1000000 0x1400000).alloc 3 1).pmm.FreePage x ↔
      (init 0x1000000 0x1400000).pmm.FreePage x := by
  have hnull : (oneSuper.pmm.allocPages 3 1).1 = none := by decide +kernel
  exact ⟨hnull, (refused_superPage (by decide) (by decide) (by decide) .refl hnull).1⟩

/-- With `mem_start = 0` the refused block is the null pointer for `free_pages`, which returns at
once: its pages are not free any more and nobody has them. -/
theorem refused_nullPage :
    ((init 0 0x400000).pmm.allocPages 3 1).1 = none ∧ (init 0 0x400000).pmm.FreePage 0 ∧
      ¬ ((init 0 0x400000).alloc 3 1).pmm.FreePage 0 := by
  refine ⟨by decide +kernel, ⟨(0, maxOrder), by decide +kernel, by decide⟩, ?_⟩
  have hblocks : ∀ b ∈ freeBlocks ((init 0 0x400000).alloc 3 1).pmm.freeList, 0 < b.1 := by
    decide +kernel
  rintro ⟨b, hb, hle, -⟩
  have hpos := hblocks b hb
  omega

/-! ### The metadata -/

/-- A call of `alloc_pages` that finds a free block outside of the super pages with metadata, or
a `free_pages`. -/
inductive ReservingStep : BuddyRun → BuddyRun → Prop
  | alloc (σ : BuddyRun) (order flags : ℕ) (ho : σ.pmm.HasOther order) :
      ReservingStep σ (σ.alloc order flags)
  | release (σ : BuddyRun) (page order : ℕ) (hout : (page, order) ∈ σ.out) :
      ReservingStep σ (σ.release page order)

theorem ReservingStep.step (h : ReservingStep σ σ') : Step σ σ' := by
  cases h with
  | alloc order flags _ => exact .alloc σ order flags
  | release page order hout => exact .free σ page order hout

theorem reserved_step {top : ℕ} (htop : top ≤ σ.pmm.numPages)
    (h : ∃ free, σ.pmm.Inv top free σ.out [] ∧ Reserved σ.pmm.metaTop free σ.out)
    (hstep : ReservingStep σ σ') :
    ∃ free, σ'.pmm.Inv top free σ'.out [] ∧ Reserved σ.pmm.metaTop free σ'.out := by
  obtain ⟨free, h, hr⟩ := h
  cases hstep with
  | alloc order flags ho =>
    obtain ⟨k, hk, hk', i, hi, hmt⟩ := ho
    rw [h.freeList_eq htop hk'] at hi
    obtain ⟨free', out', rfl, h', hr'⟩ := hr.allocPages h flags ⟨k, hk, hk', i, hi, hmt⟩
    exact ⟨free', h', hr'⟩
  | release page order hout => exact hr.freePages h hout

theorem reserved_of_run (hbase : 0 < memStart) (hle : memStart ≤ memEnd)
    (hend : memEnd ≤ 0xFFC00000 + memStart % superPageSize)
    (hrun : ReflTransGen ReservingStep (init memStart memEnd) σ) :
    ∃ free, σ.pmm.Inv (2 ^ maxOrder * ((memEnd - memStart) / superPageSize)) free σ.out [] ∧
      Reserved σ.pmm.metaTop free σ.out := by
  induction hrun with
  | refl =>
    obtain ⟨free, h, hsupers⟩ := inv_pmmInit hbase hle hend
    exact ⟨free, h, reserved_of_supers hsupers _⟩
  | tail hrun hstep ih =>
    have hrun' := ReflTransGen.mono (fun _ _ => ReservingStep.step) _ _ hrun
    obtain ⟨free, h, hr⟩ := reserved_step (numPages_of_run hrun') ih hstep
    have hmeta := (sameArena_step hstep.step).2
    refine ⟨free, h, ?_⟩
    unfold metaTop metaSupers at hr ⊢
    rwa [hmeta]

/-- **The metadata is not handed out** in runs whose `alloc_pages` calls find another block. -/
theorem metadata_of_run (hbase : 0 < memStart) (hle : memStart ≤ memEnd)
    (hend : memEnd ≤ 0xFFC00000 + memStart % superPageSize)
    (hrun : ReflTransGen ReservingStep (init memStart memEnd) σ) :
    ∀ b ∈ σ.out, ∀ x, σ.pmm.BlockByte b x → ¬ σ.pmm.MetaByte x := by
  obtain ⟨free, -, hr⟩ := reserved_of_run hbase hle hend hrun
  exact fun b hb x hx => not_metaByte (hr.outs b hb) hx

/-- With two super pages, the second one is used first. -/
theorem metadata_of_run_onePage :
    ((init 0x1000000 0x1800000).alloc 0 0).out = [(1024, 0)] ∧
    ∀ b ∈ ((init 0x1000000 0x1800000).alloc 0 0).out, ∀ x,
      ((init 0x1000000 0x1800000).alloc 0 0).pmm.BlockByte b x →
      ¬ ((init 0x1000000 0x1800000).alloc 0 0).pmm.MetaByte x := by
  have hlist : 1024 ∈ (init 0x1000000 0x1800000).pmm.freeList 10 := by decide +kernel
  have hmeta : (init 0x1000000 0x1800000).pmm.metaTop ≤ 1024 := by decide +kernel
  have hrun : ReflTransGen ReservingStep (init 0x1000000 0x1800000)
      ((init 0x1000000 0x1800000).alloc 0 0) :=
    .single (.alloc _ 0 0 ⟨10, Nat.zero_le _, le_refl _, 1024, hlist, hmeta⟩)
  exact ⟨by decide +kernel, metadata_of_run (by decide) (by decide) (by decide) hrun⟩

/-- The only super page of the memory is handed out, with the metadata in it. -/
theorem metadata_handed_out :
    ∃ σ, ReflTransGen Step (init 0x1000000 0x1400000) σ ∧ σ.out = [(0, 10)] ∧
      σ.pmm.BlockByte (0, 10) 0x1000000 ∧ σ.pmm.MetaByte 0x1000000 := by
  have hrun := ReflTransGen.single (Step.alloc oneSuper 10 0)
  obtain ⟨hb, hn⟩ := sameArena_of_run hrun
  refine ⟨_, hrun, ?_, ?_, ?_⟩
  · have hpage : (oneSuper.pmm.allocPages 10 0).1 = some 0 := by decide +kernel
    rw [hpage]
    rfl
  · unfold BlockByte
    rw [hb]
    decide
  · unfold MetaByte
    rw [hb, hn]
    decide

end BuddyRun

end Mcertikos
