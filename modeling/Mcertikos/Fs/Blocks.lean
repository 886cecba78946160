/-
Buffers and the block allocator in the rules for contents.

* `Geom` — the sizes of a file system with one bitmap block;
* `wp_reading`, `pre_put` — a buffer that is read, and one that is changed and logged;
* `Room` — the transaction stays small;
* `wp_blockAlloc`, `wp_blockFree` — what the allocator does to the contents of blocks.
-/
import Mcertikos.Fs.Format
import Mcertikos.Fs.Inode
import Mcertikos.Fs.View

namespace Mcertikos

namespace Fs

open Finset Function Prog

/-! ### Geometry -/

/-- The sizes in a superblock, of a file system that needs one bitmap block. -/
structure Geom where
  size : ℕ
  ninodes : ℕ
  nlog : ℕ
  one_lt_ninodes : 1 < ninodes
  nlog_pos : 0 < nlog
  size_le : size ≤ bpb
  fits : ninodes / ipb + 4 + nlog ≤ size

namespace Geom

variable (G : Geom)

/-- The bitmap block. -/
def bitmap : ℕ := G.ninodes / ipb + 3

/-- The first data block. -/
def dataStart : ℕ := G.bitmap + 1

/-- The end of the data area, where the log begins. -/
def dataEnd : ℕ := G.size - G.nlog

def area : LogArea where
  start := G.dataEnd
  size := G.nlog
  size_pos := G.nlog_pos
  fits := by
    have h1 := G.size_le
    have h2 := G.fits
    unfold dataEnd
    unfold bpb at h1
    unfold ipb at h2
    omega
  super_outside := by
    have h2 := G.fits
    unfold dataEnd
    unfold ipb at h2
    omega

theorem dataStart_le : G.dataStart ≤ G.dataEnd := by
  have := G.fits
  unfold dataStart bitmap dataEnd
  omega

theorem dataEnd_le : G.dataEnd ≤ bpb := (Nat.sub_le ..).trans G.size_le

/-- The superblock has these sizes. -/
structure Super (blk : ℕ → Block) : Prop where
  size : (Superblock.load (blk 1)).size = G.size
  ninodes : (Superblock.load (blk 1)).ninodes = G.ninodes
  nlog : (Superblock.load (blk 1)).nlog = G.nlog

variable {G}

theorem lt_of_lt_dataEnd {sec : ℕ} (h : sec < G.dataEnd) : sec < 2 ^ 28 := by
  have := G.dataEnd_le
  unfold bpb at this
  omega

theorem not_holds {sec : ℕ} (h : sec < G.dataEnd) : ¬ G.area.Holds sec := fun hh =>
  absurd hh.1 (Nat.not_le.mpr h)

theorem one_lt_dataEnd : 1 < G.dataEnd := by
  have := G.dataStart_le
  unfold dataStart bitmap ipb at this
  omega

theorem bitmap_lt : G.bitmap < G.dataEnd := G.dataStart_le

theorem bitmap_ne_one : G.bitmap ≠ 1 := by
  unfold bitmap
  exact Nat.ne_of_gt (Nat.lt_of_lt_of_le (by decide) (Nat.le_add_left 3 _))

theorem iblock_lt {x : ℕ} (hx : x < G.ninodes) : iblock x < G.bitmap := by
  have := Nat.div_le_div_right (c := ipb) hx.le
  unfold iblock bitmap
  omega

theorem two_le_iblock (x : ℕ) : 2 ≤ iblock x := Nat.le_add_left ..

theorem bblock_eq {b : ℕ} (hb : b < bpb) : bblock b G.ninodes = G.bitmap := by
  unfold bblock bitmap
  rw [Nat.div_eq_of_lt hb, Nat.zero_add]

theorem Super.dataStart_eq {blk : ℕ → Block} (h : G.Super blk) :
    (Superblock.load (blk 1)).dataStart = G.dataStart := by
  have h1 := G.size_le
  have h2 := G.fits
  unfold Superblock.dataStart Geom.dataStart bitmap
  rw [h.size, h.ninodes]
  unfold bpb at h1 ⊢
  unfold ipb at h2 ⊢
  omega

theorem marked_iff {blk : ℕ → Block} (h : G.Super blk) :
    Marked blk ↔ ∀ b < G.dataStart, (blk G.bitmap).bit b = true := by
  unfold Marked
  rw [h.dataStart_eq, h.ninodes]
  refine forall₂_congr fun b hb => ?_
  have hlt : b < bpb := (hb.trans_le G.dataStart_le).trans_le G.dataEnd_le
  rw [bblock_eq hlt, Nat.mod_eq_of_lt hlt]

end Geom

/-! ### Buffers -/

section Tolerant

variable {ok : Stop → Prop}

end Tolerant

/-- Reading the sector leads to no failure that is not left out of consideration. -/
structure Readable (A : LogArea) (ok : Stop → Prop) (t : View) (sec : ℕ) : Prop where
  lt : sec < 2 ^ 28
  outside : ¬ A.Holds sec
  fails : ∀ e, Shows.ReadFails t.held t.logged sec e → ok e

/-- With the sectors of `S`, the transaction is small enough for the log and the cache. -/
def Room (A : LogArea) (ok : Stop → Prop) (t : View) (S : Finset ℕ) : Prop :=
  (ok tooBig ∧ ok noBuffers) ∨ (t.ready = true ∧ logsize ≤ A.size ∧ (t.pins ∪ S).card ≤ 8)

namespace View

/-- The block `sec` gets new contents in the transaction. -/
def put (t : View) (sec : ℕ) (data : Block) : View :=
  { t with blk := update t.blk sec data, logged := insert sec t.logged }

theorem drop_hold {t : View} {b sec : ℕ} (hb : t.held b = none) : (t.hold b sec).drop b = t := by
  unfold hold drop
  rw [update_idem, ← hb, update_eq_self]

theorem drop_log_store_hold {t : View} {b sec : ℕ} (data : Block) (hb : t.held b = none)
    (hm : t.modified b = false) :
    (((t.hold b sec).store b sec data).log b sec).drop b = t.put sec data := by
  unfold hold store log drop put
  dsimp only
  rw [update_idem, update_idem, ← hb, ← hm, update_eq_self, update_eq_self]

end View

section Buffers

variable {A : LogArea} {ok : Stop → Prop} {t : View} {S S' : Finset ℕ} {b sec : ℕ} {β : Type}
  {R : β → View → Prop}

theorem Room.mono (h : Room A ok t S) (hS : S' ⊆ S) : Room A ok t S' :=
  h.imp_right fun ⟨h1, h2, h3⟩ =>
    ⟨h1, h2, (card_le_card (union_subset_union_right hS)).trans h3⟩

/-- No buffer with the sector is held. -/
def Unheld (t : View) (sec : ℕ) : Prop := ∀ i, t.held i ≠ some sec

theorem Unheld.hold {sec' : ℕ} (h : t.held = fun _ => none) (hne : sec ≠ sec') :
    Unheld (t.hold b sec') sec := fun i hi => by
  change update t.held b (some sec') i = some sec at hi
  by_cases hib : i = b
  · rw [hib, update_self] at hi
    exact hne (Option.some.inj hi).symm
  · rw [update_of_ne hib, h] at hi
    cases hi

theorem Room.readable (h : Room A ok t S) (hfree : Unheld t sec) (hlt : sec < 2 ^ 28)
    (hout : ¬ A.Holds sec) : Readable A ok t sec := by
  refine ⟨hlt, hout, ?_⟩
  rintro e (⟨rfl, i, hi⟩ | ⟨rfl, hn⟩)
  · exact absurd hi (hfree i)
  · rcases h with h | ⟨-, -, h⟩
    · exact h.2
    · have hle : t.pins.card ≤ (t.pins ∪ S).card := card_le_card subset_union_left
      unfold View.pins at hle h
      unfold nbuf at hn
      omega

theorem Room.put (h : Room A ok t S) (hsec : sec ∈ S) (data : Block) :
    Room A ok (t.put sec data) S := by
  refine h.imp_right fun ⟨h1, h2, h3⟩ => ⟨h1, h2, (card_le_card ?_).trans h3⟩
  refine union_subset (union_subset ?_ ?_) subset_union_right
  · refine insert_subset (mem_union_right _ hsec) ?_
    exact subset_union_left.trans subset_union_left
  · exact subset_union_right.trans subset_union_left

/-- Taking a buffer. -/
theorem wp_reading {f : ℕ → FsM β} (h : Readable A ok t sec)
    (hf : ∀ b < nbuf, t.held b = none → t.modified b = false → Wp (rules A ok) (f b) R (t.hold b sec)) :
    Wp (rules A ok) (bufcacheRead rootdev sec >>= f) R t :=
  ⟨rfl, h.lt, h.outside, h.fails, fun b hb hfree hm _ => hf b hb hfree hm⟩

theorem wp_data {f : Block → FsM β} (hf : Wp (rules A ok) (f (t.blk sec)) R (t.hold b sec)) :
    Wp (rules A ok) (bufData b >>= f) R (t.hold b sec) := ⟨sec, update_self .., hf⟩

theorem pre_release {Q : PUnit → View → Prop} (hfree : t.held b = none) (hm : t.modified b = false)
    (hQ : Q ⟨⟩ t) : (rules A ok).pre (.brelse b) Q (t.hold b sec) := by
  refine ⟨sec, update_self .., hm, ?_⟩
  rw [View.drop_hold hfree]
  exact hQ

/-- A buffer is changed, logged and released. -/
theorem pre_put {Q : PUnit → View → Prop} {data : Block}
    (hout : t.busy = false → ok outsideTrans) (hroom : Room A ok t S)
    (hsec : sec ∈ S) (hne : sec ≠ 1) (hfree : t.held b = none) (hm : t.modified b = false)
    (hQ : t.busy = true → Q ⟨⟩ (t.put sec data)) :
    (rules A ok).pre (.setData b data) (fun _ => (rules A ok).pre (.logWrite b) fun _ =>
      (rules A ok).pre (.brelse b) Q) (t.hold b sec) := by
  have hheld : update t.held b (some sec) b = some sec := update_self ..
  have hcard : (t.ready = true ∧ logsize ≤ A.size ∧ (t.pins ∪ S).card ≤ 8) →
      t.logged.card ≤ 8 ∧ (pinned (update t.held b (some sec)) t.logged).card ≤ 8 := by
    rintro ⟨-, -, h⟩
    refine ⟨(card_le_card ?_).trans h, (card_le_card ?_).trans h⟩
    · exact subset_union_left.trans subset_union_left
    · refine pinned_update_subset.trans (insert_subset (mem_union_right _ hsec) ?_)
      exact subset_union_left
  refine ⟨sec, hheld, hne, sec, hheld, ?_, hout, ?_, fun hbusy => ?_⟩
  · intro hbig
    rcases hroom with h | h
    · exact h.1
    · have := (hcard h).1
      rcases hbig with hready | hbig | hbig
      · have hready : t.ready = false := hready
        rw [h.1] at hready
        cases hready
      · have hbig : logsize ≤ t.logged.card := hbig
        unfold logsize at hbig
        omega
      · have hbig : A.size ≤ t.logged.card + 1 := hbig
        have := h.2.1
        unfold logsize at this
        omega
  · intro hfull
    rcases hroom with h | h
    · exact h.2
    · have h1 := (hcard h).2
      have h2 : nbuf ≤ (pinned (update t.held b (some sec)) t.logged).card := hfull
      unfold nbuf at h2
      omega
  · refine ⟨sec, hheld, update_self .., ?_⟩
    rw [View.drop_log_store_hold data hfree hm]
    exact hQ hbusy

theorem wp_when {c : Prop} [Decidable c] {m : FsM PUnit} {f : PUnit → FsM β}
    (h1 : c → Wp (rules A ok) m (fun _ => Wp (rules A ok) (f ⟨⟩) R) t)
    (h2 : ¬ c → Wp (rules A ok) (f ⟨⟩) R t) : Wp (rules A ok) (Prog.when c m >>= f) R t := by
  rw [wp_bind]
  unfold Prog.when
  split_ifs with hc
  · exact h1 hc
  · exact h2 hc

end Buffers

/-! ### The allocator -/

namespace View

/-- Block `b` is marked in the bitmap and zeroed. -/
def alloc (G : Geom) (t : View) (b : ℕ) : View :=
  (t.put G.bitmap ((t.blk G.bitmap).setBit b)).put b Block.zeroed

end View

/-- The buffers held are of blocks in use, and not those that the allocator reads. -/
def Spares (G : Geom) (t : View) : Prop :=
  ∀ {i sec}, t.held i = some sec → sec ≠ 1 ∧ sec ≠ G.bitmap ∧ (t.blk G.bitmap).bit sec = true

section Alloc

variable {G : Geom} {ok : Stop → Prop} {t : View} {S : Finset ℕ}

theorem Spares.super (h : Spares G t) : Unheld t 1 := fun _ hi => (h hi).1 rfl

theorem Spares.bitmap (h : Spares G t) : Unheld t G.bitmap := fun _ hi => (h hi).2.1 rfl

theorem Spares.fresh (h : Spares G t) {b : ℕ} (hb : (t.blk G.bitmap).bit b = false) : Unheld t b :=
  fun _ hi => by
    rw [(h hi).2.2] at hb
    cases hb

theorem Spares.of_none (h : t.held = fun _ => none) : Spares G t := fun hi => by
  rw [h] at hi
  cases hi

theorem Spares.hold (h : t.held = fun _ => none) {b sec : ℕ} (h1 : sec ≠ 1) (h2 : sec ≠ G.bitmap)
    (h3 : (t.blk G.bitmap).bit sec = true) : Spares G (t.hold b sec) := by
  intro i sec' hi
  obtain rfl : sec' = sec := by
    by_contra hne
    exact Unheld.hold h hne i hi
  exact ⟨h1, h2, h3⟩

theorem wp_readSuperblock {Q : Superblock → View → Prop} (h : Readable G.area ok t 1)
    (hQ : Q (Superblock.load (t.blk 1)) t) :
    Wp (rules G.area ok) (readSuperblock rootdev) Q t :=
  wp_reading h fun _ _ hfree hm => wp_data (pre_release hfree hm hQ)

theorem Room.readable_of_lt {sec : ℕ} (h : Room G.area ok t S) (hfree : Unheld t sec)
    (hlt : sec < G.dataEnd) : Readable G.area ok t sec :=
  h.readable hfree (Geom.lt_of_lt_dataEnd hlt) (Geom.not_holds hlt)

theorem wp_blockZero {bno : ℕ} {Q : PUnit → View → Prop} (hout : t.busy = false → ok outsideTrans)
    (hroom : Room G.area ok t S) (hmem : bno ∈ S) (hlt : bno < G.dataEnd) (hne : bno ≠ 1)
    (hfree : Unheld t bno) (hQ : Q ⟨⟩ (t.put bno Block.zeroed)) :
    Wp (rules G.area ok) (blockZero rootdev bno) Q t :=
  wp_reading (hroom.readable_of_lt hfree hlt) fun _ _ hfree hm =>
    pre_put hout hroom hmem hne hfree hm fun _ => hQ

/-- **`block_alloc`** finds a block of the data area that is clear in the bitmap. -/
theorem wp_blockAlloc {Q : ℕ → View → Prop}
    (hfull : (∀ b, G.dataStart ≤ b → b < G.dataEnd → (t.blk G.bitmap).bit b = true) → ok outOfBlocks)
    (hout : t.busy = false → ok outsideTrans) (hsup : G.Super t.blk)
    (hspare : Spares G t)
    (hmark : ∀ b < G.dataStart, (t.blk G.bitmap).bit b = true)
    (hroom : ∀ b, G.dataStart ≤ b → b < G.dataEnd → (t.blk G.bitmap).bit b = false →
      Room G.area ok t {G.bitmap, b})
    (hread : Room G.area ok t ∅)
    (hQ : ∀ b, G.dataStart ≤ b → b < G.dataEnd → (t.blk G.bitmap).bit b = false →
      Q b (t.alloc G b)) :
    Wp (rules G.area ok) (blockAlloc rootdev) Q t := by
  have hsize : 0 < G.size := by
    have := G.fits
    unfold ipb at this
    omega
  refine ⟨(Geom.marked_iff hsup).mpr hmark, ?_⟩
  show Wp _ (readSuperblock rootdev >>= _) Q t
  refine Wp.bind (wp_readSuperblock (hread.readable_of_lt hspare.super Geom.one_lt_dataEnd)
    (Q := fun sb t' => sb = Superblock.load (t.blk 1) ∧ t' = t) ⟨rfl, rfl⟩) ?_
  rintro sb t' ⟨rfl, rfl⟩
  have hrounds : ((Superblock.load (t'.blk 1)).size + bpb - 1) / bpb = 1 := by
    have h1 := G.size_le
    rw [hsup.size]
    unfold bpb at h1 ⊢
    omega
  rw [hrounds]
  unfold blockAllocFrom
  rw [hsup.ninodes, hsup.size, hsup.nlog, Geom.bblock_eq (by decide)]
  refine wp_reading (hread.readable_of_lt hspare.bitmap Geom.bitmap_lt) fun bp _ hfree hm => wp_data ?_
  cases hbit : (t'.blk G.bitmap).freeBitFrom 0 G.size bpb 0 with
  | none =>
    refine pre_release hfree hm (hfull fun b _ hb => Block.freeBitFrom_none hbit (Nat.zero_le b) ?_ ?_)
    · rw [Nat.zero_add]
      exact hb.trans_le G.dataEnd_le
    · rw [Nat.zero_add]
      exact hb.trans_le (Nat.sub_le ..)
  | some bi =>
    dsimp only
    obtain ⟨-, hlt, hsz, hclear, hlow⟩ := Block.freeBitFrom_some hbit
    rw [Nat.zero_add] at hsz hlt ⊢
    have hstart : G.dataStart ≤ bi := by
      by_contra hlt'
      rw [hmark bi (Nat.not_le.mp hlt')] at hclear
      cases hclear
    refine wp_when (fun hend => hfull fun b _ hb => hlow b (Nat.zero_le b) (hb.trans_le hend))
      fun hend => ?_
    have hend : bi < G.dataEnd := Nat.not_le.mp hend
    have hr := hroom bi hstart hend hclear
    have hbi1 : bi ≠ 1 := by
      unfold Geom.dataStart Geom.bitmap ipb at hstart
      omega
    refine pre_put hout hr (by simp) Geom.bitmap_ne_one hfree hm fun _ => ?_
    have hr' := hr.put (mem_insert_self G.bitmap _) ((t'.blk G.bitmap).setBit bi)
    show Wp _ (blockZero rootdev bi >>= fun _ => pure bi) Q _
    exact Prog.wp_bind.mpr (wp_blockZero hout hr' (by simp) hend hbi1 (hspare.fresh hclear)
      (hQ bi hstart hend hclear))

end Alloc

end Fs

end Mcertikos
