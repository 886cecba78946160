/-
Who owns which block.

The current contents of the inodes and the owners of the data blocks explain the blocks of
a file system: a disk inode, an indirect block and the bitmap say where the blocks of a file
are, and every data block belongs to one file or is free.

* `Owner`, `Ghost` — what a data block is used for; the inodes and the owners of the blocks;
* `Maps G blk g` — the blocks `blk` are as `g` says;
* `Maps.takeAddr`, `Maps.takeEntry` — a new block for a file;
* `Maps.store`, `Maps.modify`, `Maps.update` — new contents of a block or of an inode;
* `Maps.dropAddr` — freeing what an address of an inode leads to.
-/
import Mcertikos.Fs.Blocks

namespace Mcertikos

open Function

namespace Fs

/-- What a block of the data area is used for: block `j` of inode `x`, or its indirect block. -/
inductive Owner where
  | data (x j : ℕ)
  | ind (x : ℕ)
  deriving DecidableEq

def Owner.inode : Owner → ℕ
  | .data x _ => x
  | .ind x => x

/-- The block that address `i` of inode `x` is for. -/
def Owner.slot (x i : ℕ) : Owner := if i < ndirect then .data x i else .ind x

/-- The inodes with the changes made in memory, the owners of the data blocks, the contents of
the blocks of files, and the inodes that are not yet on disk as they are in memory. -/
structure Ghost where
  V : ℕ → Dinode
  own : Owner → Option ℕ
  C : ℕ → ℕ → Block
  stale : ℕ → Prop

/-- The bitmap and the owners. -/
structure Marks (G : Geom) (bm : Block) (own : Owner → Option ℕ) : Prop where
  inside : ∀ {o b}, own o = some b → G.dataStart ≤ b ∧ b < G.dataEnd
  inj : ∀ {o o' b}, own o = some b → own o' = some b → o = o'
  bit : ∀ b < G.dataEnd, bm.bit b = true ↔ b < G.dataStart ∨ ∃ o, own o = some b

/-- Inodes and indirect blocks say where the blocks of files are. -/
structure Points (G : Geom) (blk : ℕ → Block) (g : Ghost) : Prop where
  super : G.Super blk
  fits : ∀ x, (g.V x).Fits
  inode : ∀ x < G.ninodes, ¬ g.stale x → (blk (iblock x)).dinode (x % ipb) = g.V x
  addr : ∀ x, ∀ i ≤ ndirect, (g.V x).addr i = (g.own (.slot x i)).getD 0
  entry : ∀ {x b}, g.own (.ind x) = some b → ∀ j < nindirect,
    (blk b).entry j = (g.own (.data x (ndirect + j))).getD 0
  bare : ∀ {x}, g.own (.ind x) = none → ∀ j, g.own (.data x (ndirect + j)) = none
  short : ∀ x j, maxfile ≤ j → g.own (.data x j) = none
  data : ∀ {x j b}, g.own (.data x j) = some b → blk b = g.C x j
  used : ∀ {o b}, g.own o = some b → o.inode < G.ninodes ∧ (g.V o.inode).type ≠ 0

/-- The blocks of a file system. -/
structure Maps (G : Geom) (blk : ℕ → Block) (g : Ghost) : Prop extends Points G blk g where
  marks : Marks G (blk G.bitmap) g.own

/-- A free block of the data area. -/
structure Fresh (G : Geom) (blk : ℕ → Block) (b : ℕ) : Prop where
  start_le : G.dataStart ≤ b
  lt_end : b < G.dataEnd
  clear : (blk G.bitmap).bit b = false

/-- A block of the data area is none of the others. -/
structure Geom.Apart (G : Geom) (b : ℕ) : Prop where
  super : b ≠ 1
  bitmap : b ≠ G.bitmap
  iblock : ∀ x < G.ninodes, b ≠ iblock x

theorem Geom.apart {G : Geom} {b : ℕ} (h : G.dataStart ≤ b) : G.Apart b := by
  have hlt : G.bitmap < b := h
  have h3 : 3 ≤ G.bitmap := Nat.le_add_left ..
  exact ⟨by omega, by omega, fun x hx => by have := Geom.iblock_lt hx; omega⟩

namespace Owner

variable {x y i j : ℕ}

theorem slot_of_lt (hi : i < ndirect) : slot x i = .data x i := if_pos hi

theorem slot_ndirect : slot x ndirect = .ind x := if_neg (lt_irrefl _)

@[simp] theorem inode_slot : (slot x i).inode = x := by
  unfold slot
  split <;> rfl

theorem slot_inj (hi : i ≤ ndirect) (hj : j ≤ ndirect) (h : slot y j = slot x i) : y = x ∧ j = i := by
  unfold slot at h
  split_ifs at h
  · injection h with h1 h2
    exact ⟨h1, h2⟩
  · injection h with h1
    exact ⟨h1, by omega⟩

theorem data_ne_slot : Owner.data y (ndirect + j) ≠ slot x i := by
  unfold slot
  split_ifs with hi
  · intro h
    injection h with _ h
    omega
  · exact nofun

end Owner

/-! ### The bitmap -/

section Marks

variable {G : Geom} {bm : Block} {own own' : Owner → Option ℕ} {o : Owner} {b : ℕ}

theorem Marks.not_owned (h : Marks G bm own) (hlt : b < G.dataEnd) (hclear : bm.bit b = false)
    (o : Owner) : own o ≠ some b := fun ho => by
  rw [(h.bit b hlt).mpr (.inr ⟨o, ho⟩)] at hclear
  cases hclear

theorem Marks.bit_of_own (h : Marks G bm own) (ho : own o = some b) : bm.bit b = true :=
  (h.bit b (h.inside ho).2).mpr (.inr ⟨o, ho⟩)

theorem Marks.take (h : Marks G bm own) (hstart : G.dataStart ≤ b) (hlt : b < G.dataEnd)
    (hclear : bm.bit b = false) (ho : own o = none) :
    Marks G (bm.setBit b) (update own o (some b)) := by
  have hnot := h.not_owned hlt hclear
  have hcases : ∀ {o' c}, update own o (some b) o' = some c →
      (o' = o ∧ c = b) ∨ (o' ≠ o ∧ own o' = some c) := by
    intro o' c hc
    by_cases he : o' = o
    · rw [he, update_self] at hc
      exact .inl ⟨he, (Option.some.inj hc).symm⟩
    · rw [update_of_ne he] at hc
      exact .inr ⟨he, hc⟩
  refine ⟨fun {o' c} hc => ?_, fun {o1 o2 c} h1 h2 => ?_, fun c hc => ?_⟩
  · rcases hcases hc with ⟨-, rfl⟩ | ⟨-, hc⟩
    · exact ⟨hstart, hlt⟩
    · exact h.inside hc
  · rcases hcases h1 with ⟨h1, e1⟩ | ⟨-, h1⟩ <;> rcases hcases h2 with ⟨h2, e2⟩ | ⟨-, h2⟩
    · rw [h1, h2]
    · exact absurd (e1 ▸ h2) (hnot o2)
    · exact absurd (e2 ▸ h1) (hnot o1)
    · exact h.inj h1 h2
  · rw [Block.bit_setBit (hlt.trans_le G.dataEnd_le), Bool.or_eq_true, h.bit c hc, decide_eq_true_eq,
      or_assoc]
    refine or_congr_right ⟨?_, ?_⟩
    · rintro (⟨o', ho'⟩ | rfl)
      · have hne : o' ≠ o := fun he => by
          rw [he, ho] at ho'
          cases ho'
        exact ⟨o', (update_of_ne hne ..).trans ho'⟩
      · exact ⟨o, update_self ..⟩
    · rintro ⟨o', ho'⟩
      rcases hcases ho' with ⟨-, rfl⟩ | ⟨-, ho'⟩
      · exact .inr rfl
      · exact .inl ⟨o', ho'⟩

end Marks

/-! ### Changes of the ghost state -/

namespace Ghost

/-- The inode `x` changes in memory. -/
def modify (g : Ghost) (x : ℕ) (d : Dinode) : Ghost :=
  { g with V := update g.V x d, stale := fun y => y = x ∨ g.stale y }

/-- The inode `x` is written to disk. -/
def clean (g : Ghost) (x : ℕ) : Ghost := { g with stale := fun y => g.stale y ∧ y ≠ x }

def take (g : Ghost) (o : Owner) (b : ℕ) : Ghost := { g with own := update g.own o (some b) }

/-- New contents for block `j` of inode `x`. -/
def store (g : Ghost) (x j : ℕ) (data : Block) : Ghost :=
  { g with C := update g.C x (update (g.C x) j data) }

/-- Address `i` of inode `x` gets the block `b`. -/
def takeAddr (g : Ghost) (x i b : ℕ) : Ghost :=
  ((g.take (.slot x i) b).store x i Block.zeroed).modify x ((g.V x).setAddr i b)

/-- Entry `j` of the indirect block of `x` gets the block `b`. -/
def takeEntry (g : Ghost) (x j b : ℕ) : Ghost :=
  (g.take (.data x (ndirect + j)) b).store x (ndirect + j) Block.zeroed

theorem store_C_self (g : Ghost) (x j : ℕ) (data : Block) : (g.store x j data).C x j = data := by
  unfold store
  dsimp only
  rw [update_self, update_self]

theorem store_C_of_ne (g : Ghost) {x j y i : ℕ} (data : Block) (h : ¬ (y = x ∧ i = j)) :
    (g.store x j data).C y i = g.C y i := by
  unfold store
  dsimp only
  by_cases hy : y = x
  · rw [hy, update_self, update_of_ne fun hi => h ⟨hy, hi⟩]
  · rw [update_of_ne hy]

section Fields

variable (g : Ghost) {x y i j b : ℕ} {d : Dinode} {o : Owner}

theorem modify_V_self : (g.modify x d).V x = d := update_self ..

theorem modify_V_of_ne (h : y ≠ x) : (g.modify x d).V y = g.V y := update_of_ne h ..

theorem take_self : (g.take o b).own o = some b := update_self ..

theorem takeAddr_V_self : (g.takeAddr x i b).V x = (g.V x).setAddr i b := update_self ..

theorem takeAddr_V_of_ne (h : y ≠ x) : (g.takeAddr x i b).V y = g.V y := update_of_ne h ..

theorem takeAddr_own_self : (g.takeAddr x i b).own (.slot x i) = some b := update_self ..

theorem takeAddr_own_of_ne (h : o ≠ .slot x i) : (g.takeAddr x i b).own o = g.own o :=
  update_of_ne h ..

theorem takeEntry_own_self : (g.takeEntry x j b).own (.data x (ndirect + j)) = some b :=
  update_self ..

theorem takeEntry_own_of_ne (h : o ≠ .data x (ndirect + j)) : (g.takeEntry x j b).own o = g.own o :=
  update_of_ne h ..

end Fields

end Ghost

/-! ### Pointers -/

section Points

variable {G : Geom} {blk blk' : ℕ → Block} {g : Ghost} {x i j b : ℕ}

/-- The blocks that count have not changed. -/
theorem Points.frame (h : Points G blk g) (h1 : blk' 1 = blk 1)
    (hi : ∀ x < G.ninodes, blk' (iblock x) = blk (iblock x))
    (ho : ∀ {o b}, g.own o = some b → blk' b = blk b) : Points G blk' g where
  super := ⟨by rw [h1, h.super.size], by rw [h1, h.super.ninodes], by rw [h1, h.super.nlog]⟩
  fits := h.fits
  inode := fun x hx hs => by rw [hi x hx, h.inode x hx hs]
  addr := h.addr
  entry := fun hb j hj => by rw [ho hb, h.entry hb j hj]
  bare := h.bare
  short := h.short
  data := fun hb => by rw [ho hb, h.data hb]
  used := h.used

/-- Another inode `x`, with what has to be known of it. -/
theorem Points.setInode (h : Points G blk g) (g' : Ghost) {d : Dinode} (hV : g'.V = update g.V x d)
    (hstale : ∀ y, g'.stale y ↔ y = x ∨ g.stale y) (hd : d.Fits) :
    (∀ y, (g'.V y).Fits) ∧
      ∀ y < G.ninodes, ¬ g'.stale y → (blk (iblock y)).dinode (y % ipb) = g'.V y := by
  refine ⟨fun y => ?_, fun y hy hs => ?_⟩
  · rw [hV]
    by_cases hyx : y = x
    · rw [hyx, update_self]
      exact hd
    · rw [update_of_ne hyx]
      exact h.fits y
  · rw [hstale, not_or] at hs
    rw [hV, update_of_ne hs.1]
    exact h.inode y hy hs.2

/-- An inode gets other attributes, and keeps its blocks. -/
theorem Points.modify (h : Points G blk g) {d : Dinode} (hd : d.Fits)
    (haddr : ∀ i, d.addr i = (g.V x).addr i)
    (htype : d.type = 0 → ∀ o b, g.own o = some b → o.inode ≠ x) : Points G blk (g.modify x d) := by
  obtain ⟨hfits, hinode⟩ := h.setInode (g.modify x d) rfl (fun _ => Iff.rfl) hd
  refine ⟨h.super, hfits, hinode, fun y i hi => ?_, h.entry, h.bare, h.short, h.data,
    fun {o b} ho => ⟨(h.used ho).1, ?_⟩⟩
  · show (update g.V x d y).addr i = _
    by_cases hy : y = x
    · rw [hy, update_self, haddr]
      exact h.addr x i hi
    · rw [update_of_ne hy]
      exact h.addr y i hi
  · show (update g.V x d o.inode).type ≠ 0
    by_cases hox : o.inode = x
    · rw [hox, update_self]
      exact fun h0 => htype h0 o b ho hox
    · rw [update_of_ne hox]
      exact (h.used ho).2

theorem Points.takeAddr (h : Points G blk g) (hx : x < G.ninodes) (htype : (g.V x).type ≠ 0)
    (hi : i ≤ ndirect) (hnone : g.own (.slot x i) = none) (hb32 : b < 2 ^ 32)
    (hzero : blk b = Block.zeroed) : Points G blk (g.takeAddr x i b) := by
  obtain ⟨hfits, hinode⟩ := h.setInode (g.takeAddr x i b) rfl (fun _ => Iff.rfl)
    ((h.fits x).setAddr i hb32)
  have hV : ∀ y, y ≠ x → (g.takeAddr x i b).V y = g.V y := fun y hy => g.takeAddr_V_of_ne hy
  have hVx : (g.takeAddr x i b).V x = (g.V x).setAddr i b := g.takeAddr_V_self
  have hown : ∀ {o}, o ≠ .slot x i → (g.takeAddr x i b).own o = g.own o := g.takeAddr_own_of_ne
  have hownx : (g.takeAddr x i b).own (.slot x i) = some b := g.takeAddr_own_self
  refine ⟨h.super, hfits, hinode, fun y i' hi' => ?_, fun {y c} hc j hj => ?_, fun {y} hy j => ?_,
    fun y j hj => ?_, fun {y j c} hc => ?_, fun {o c} hc => ?_⟩
  · by_cases hs : Owner.slot y i' = .slot x i
    · obtain ⟨rfl, rfl⟩ := Owner.slot_inj hi hi' hs
      rw [hownx, hVx, Dinode.addr_setAddr_self _ (Nat.lt_succ_of_le hi)]
      rfl
    · rw [hown hs]
      by_cases hy : y = x
      · subst hy
        rw [hVx, Dinode.addr_setAddr_of_ne _ fun he => hs (by rw [he])]
        exact h.addr y i' hi'
      · rw [hV y hy]
        exact h.addr y i' hi'
  · rw [hown Owner.data_ne_slot]
    by_cases hs : Owner.ind y = .slot x i
    · -- the new block is the indirect block, which is empty
      rw [hs, hownx] at hc
      rw [← hs] at hnone
      rw [h.bare hnone j, ← Option.some.inj hc, hzero, Block.entry_zeroed]
      rfl
    · rw [hown hs] at hc
      exact h.entry hc j hj
  · rw [hown Owner.data_ne_slot]
    have hs : Owner.ind y ≠ .slot x i := fun hs => by
      rw [hs, hownx] at hy
      cases hy
    rw [hown hs] at hy
    exact h.bare hy j
  · have hj' : ndirect + (j - ndirect) = j := by
      unfold maxfile at hj
      omega
    rw [← hj', hown Owner.data_ne_slot, hj']
    exact h.short y j hj
  · by_cases hs : Owner.data y j = .slot x i
    · have hji : y = x ∧ j = i := by
        unfold Owner.slot at hs
        split_ifs at hs
        injection hs with h1 h2
        exact ⟨h1, h2⟩
      rw [hs, hownx] at hc
      rw [hji.1, hji.2, ← Option.some.inj hc, hzero]
      exact (Ghost.store_C_self ..).symm
    · rw [hown hs] at hc
      rw [h.data hc]
      refine (Ghost.store_C_of_ne _ _ ?_).symm
      rintro ⟨rfl, rfl⟩
      -- only the address of the indirect block has no data block of that number
      have hjn : j = ndirect := by
        by_contra hne
        exact hs (Owner.slot_of_lt (by omega)).symm
      rw [hjn, Owner.slot_ndirect] at hnone
      have := h.bare hnone 0
      rw [hjn] at hc
      rw [Nat.add_zero, hc] at this
      cases this
  · by_cases ho : o = .slot x i
    · rw [ho, Owner.inode_slot, hVx]
      exact ⟨hx, htype⟩
    · rw [hown ho] at hc
      refine ⟨(h.used hc).1, ?_⟩
      by_cases hox : o.inode = x
      · rw [hox, hVx]
        exact htype
      · rw [hV _ hox]
        exact (h.used hc).2

theorem Points.takeEntry (h : Points G blk g) {ib : ℕ} (hind : g.own (.ind x) = some ib)
    (hj : j < nindirect) (hb32 : b < 2 ^ 32) (hbi : b ≠ ib) (hzero : blk b = Block.zeroed)
    (hapart : G.Apart ib) (hinj : ∀ {o}, g.own o = some ib → o = .ind x) :
    Points G (update blk ib ((blk ib).setEntry j b)) (g.takeEntry x j b) := by
  have hown : ∀ {o}, o ≠ .data x (ndirect + j) → (g.takeEntry x j b).own o = g.own o :=
    g.takeEntry_own_of_ne
  have hownx : (g.takeEntry x j b).own (.data x (ndirect + j)) = some b := g.takeEntry_own_self
  have hblk : ∀ {c}, c ≠ ib → update blk ib ((blk ib).setEntry j b) c = blk c := fun hc =>
    update_of_ne hc ..
  have hone := hblk hapart.super.symm
  refine ⟨⟨by rw [hone, h.super.size], by rw [hone, h.super.ninodes], by rw [hone, h.super.nlog]⟩,
    h.fits, fun y hy hs => ?_, fun y i hi => ?_, fun {y c} hc i hi => ?_, fun {y} hy i => ?_,
    fun y i hi => ?_, fun {y i c} hc => ?_, fun {o c} hc => ?_⟩
  · rw [hblk (hapart.iblock y hy).symm]
    exact h.inode y hy hs
  · rw [hown Owner.data_ne_slot.symm]
    exact h.addr y i hi
  · rw [hown (o := .ind y) nofun] at hc
    by_cases hcib : c = ib
    · have hyx : y = x := by
        have := hinj (hcib ▸ hc)
        injection this
      rw [hyx, hcib, update_self]
      by_cases hij : i = j
      · rw [hij, hownx, Block.entry_setEntry_self _ hj hb32]
        rfl
      · rw [Block.entry_setEntry_of_ne _ hij, hown (by simp [hij])]
        exact h.entry hind i hi
    · have hyx : y ≠ x := fun he => by
        rw [he, hind] at hc
        exact hcib (Option.some.inj hc).symm
      rw [hblk hcib, hown (by simp [hyx])]
      exact h.entry hc i hi
  · rw [hown (o := .ind y) nofun] at hy
    have hyx : y ≠ x := fun he => by
      rw [he, hind] at hy
      cases hy
    rw [hown (by simp [hyx])]
    exact h.bare hy i
  · have hne : i ≠ ndirect + j := by
      unfold maxfile at hi
      omega
    rw [hown (by simp [hne])]
    exact h.short y i hi
  · by_cases hyi : y = x ∧ i = ndirect + j
    · rw [hyi.1, hyi.2, hownx] at hc
      rw [hyi.1, hyi.2, ← Option.some.inj hc, hblk hbi, hzero]
      exact (Ghost.store_C_self ..).symm
    · rw [hown (by simpa using hyi)] at hc
      have hcib : c ≠ ib := fun he => nomatch hinj (o := .data y i) (hc.trans (by rw [he]))
      rw [hblk hcib, h.data hc]
      exact (Ghost.store_C_of_ne _ _ hyi).symm
  · by_cases ho : o = .data x (ndirect + j)
    · rw [ho]
      exact h.used (o := .ind x) hind
    · rw [hown ho] at hc
      exact h.used hc

end Points

/-! ### Blocks -/

/-- The blocks after `block_alloc` has returned `b`. -/
def allocBlk (G : Geom) (blk : ℕ → Block) (b : ℕ) : ℕ → Block :=
  update (update blk G.bitmap ((blk G.bitmap).setBit b)) b Block.zeroed

section Maps

variable {G : Geom} {blk : ℕ → Block} {g : Ghost} {x i j b : ℕ} {o : Owner}

theorem Maps.apart (h : Maps G blk g) (ho : g.own o = some b) : G.Apart b :=
  Geom.apart (h.marks.inside ho).1

theorem Fresh.apart (h : Fresh G blk b) : G.Apart b := Geom.apart h.start_le

theorem Fresh.lt_pow (h : Fresh G blk b) : b < 2 ^ 32 := by
  have h1 := h.lt_end
  have h2 := G.dataEnd_le
  unfold bpb at h2
  omega

theorem allocBlk_of_ne {c : ℕ} (hc : c ≠ b) (hbm : c ≠ G.bitmap) : allocBlk G blk b c = blk c := by
  unfold allocBlk
  rw [update_of_ne hc, update_of_ne hbm]

theorem Fresh.allocBlk_bitmap (h : Fresh G blk b) :
    allocBlk G blk b G.bitmap = (blk G.bitmap).setBit b := by
  unfold allocBlk
  rw [update_of_ne h.apart.bitmap.symm, update_self]

/-- A block that has been allocated and has no owner yet. -/
theorem Maps.alloc (h : Maps G blk g) (hf : Fresh G blk b) : Points G (allocBlk G blk b) g := by
  refine h.toPoints.frame (allocBlk_of_ne hf.apart.super.symm Geom.bitmap_ne_one.symm) ?_ ?_
  · intro x hx
    exact allocBlk_of_ne (hf.apart.iblock x hx).symm (Geom.iblock_lt hx).ne
  · intro o c hc
    have hne : c ≠ b := fun he => h.marks.not_owned hf.lt_end hf.clear o (he ▸ hc)
    exact allocBlk_of_ne hne (h.apart hc).bitmap

theorem Maps.takeAddr (h : Maps G blk g) (hf : Fresh G blk b) (hx : x < G.ninodes)
    (htype : (g.V x).type ≠ 0) (hi : i ≤ ndirect) (hnone : g.own (.slot x i) = none) :
    Maps G (allocBlk G blk b) (g.takeAddr x i b) := by
  refine ⟨(h.alloc hf).takeAddr hx htype hi hnone hf.lt_pow (update_self ..), ?_⟩
  rw [hf.allocBlk_bitmap]
  exact h.marks.take hf.start_le hf.lt_end hf.clear hnone

theorem Maps.takeEntry (h : Maps G blk g) (hf : Fresh G blk b) {ib : ℕ}
    (hind : g.own (.ind x) = some ib) (hj : j < nindirect)
    (hnone : g.own (.data x (ndirect + j)) = none) :
    Maps G (update (allocBlk G blk b) ib ((blk ib).setEntry j b)) (g.takeEntry x j b) := by
  have hne : b ≠ ib := fun he => h.marks.not_owned hf.lt_end hf.clear _ (he ▸ hind)
  have hib : allocBlk G blk b ib = blk ib := allocBlk_of_ne hne.symm (h.apart hind).bitmap
  have hpoints := (h.alloc hf).takeEntry hind hj hf.lt_pow hne (update_self ..)
    (h.apart hind) (fun ho => h.marks.inj ho hind)
  rw [hib] at hpoints
  refine ⟨hpoints, ?_⟩
  rw [update_of_ne (h.apart hind).bitmap.symm, hf.allocBlk_bitmap]
  exact h.marks.take hf.start_le hf.lt_end hf.clear hnone

/-- New contents for a block of a file. -/
theorem Maps.store (h : Maps G blk g) (hb : g.own (.data x j) = some b) (data : Block) :
    Maps G (update blk b data) (g.store x j data) := by
  have hapart := h.apart hb
  have hother : ∀ {o c}, g.own o = some c → o ≠ .data x j → update blk b data c = blk c :=
    fun {o c} hc ho => by
      have hne : c ≠ b := fun he => ho (h.marks.inj hc (hb.trans (by rw [he])))
      exact update_of_ne hne ..
  have hone : update blk b data 1 = blk 1 := update_of_ne hapart.super.symm ..
  refine ⟨⟨⟨?_, ?_, ?_⟩, h.fits, fun y hy hs => ?_, h.addr, fun {y c} hc i hi => ?_, h.bare, h.short,
    fun {y i c} hc => ?_, h.used⟩, ?_⟩
  · rw [hone, h.super.size]
  · rw [hone, h.super.ninodes]
  · rw [hone, h.super.nlog]
  · rw [update_of_ne (hapart.iblock y hy).symm]
    exact h.inode y hy hs
  · rw [hother hc nofun]
    exact h.entry hc i hi
  · by_cases hyi : y = x ∧ i = j
    · have hc : g.own (.data x j) = some c := hyi.1 ▸ hyi.2 ▸ hc
      rw [hb] at hc
      rw [hyi.1, hyi.2, ← Option.some.inj hc, update_self, Ghost.store_C_self]
    · rw [hother hc (by simpa using hyi), Ghost.store_C_of_ne _ _ hyi]
      exact h.data hc
  · rw [update_of_ne hapart.bitmap.symm]
    exact h.marks

theorem Maps.modify (h : Maps G blk g) {d : Dinode} (hd : d.Fits)
    (haddr : ∀ i, d.addr i = (g.V x).addr i)
    (htype : d.type = 0 → ∀ o b, g.own o = some b → o.inode ≠ x) : Maps G blk (g.modify x d) :=
  ⟨h.toPoints.modify hd haddr htype, h.marks⟩

/-- An inode is written to disk. -/
theorem Maps.update (h : Maps G blk g) (hx : x < G.ninodes) :
    Maps G (Function.update blk (iblock x) ((blk (iblock x)).setDinode (x % ipb) (g.V x)))
      (g.clean x) := by
  have hne : ∀ {c}, iblock x ≠ c →
      Function.update blk (iblock x) ((blk (iblock x)).setDinode (x % ipb) (g.V x)) c = blk c :=
    fun hc => update_of_ne hc.symm ..
  have howned : ∀ {o c}, g.own o = some c → iblock x ≠ c := fun hc => ((h.apart hc).iblock x hx).symm
  have hone := hne (Nat.ne_of_gt (Geom.two_le_iblock x))
  refine ⟨⟨⟨?_, ?_, ?_⟩, h.fits, fun y hy hs => ?_, h.addr, fun hc i hi => ?_, h.bare, h.short,
    fun hc => ?_, h.used⟩, ?_⟩
  · rw [hone, h.super.size]
  · rw [hone, h.super.ninodes]
  · rw [hone, h.super.nlog]
  · by_cases hb : iblock x = iblock y
    · rw [← hb, update_self]
      by_cases hyx : y = x
      · rw [hyx]
        exact Block.dinode_setDinode_self (Nat.mod_lt _ (by decide)) (h.fits x)
      · have hmod : y % ipb ≠ x % ipb := by
          unfold iblock ipb at hb
          unfold ipb
          omega
        rw [Block.dinode_setDinode_of_ne hmod, hb]
        exact h.inode y hy fun hs' => hs ⟨hs', hyx⟩
    · rw [hne hb]
      exact h.inode y hy fun hs' => hs ⟨hs', fun he => hb (by rw [he])⟩
  · rw [hne (howned hc)]
    exact h.entry hc i hi
  · rw [hne (howned hc)]
    exact h.data hc
  · rw [hne (Geom.iblock_lt hx).ne]
    exact h.marks

end Maps

end Fs

end Mcertikos
