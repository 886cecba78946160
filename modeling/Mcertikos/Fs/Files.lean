/-
The blocks of a file (`bmap`, `inode_read`, `inode_write`, `inode_update`).

* `Txn`, `Work` — a transaction with the blocks it has paid for, and the state of the file
  system in it;
* `wp_bmap_old`, `wp_bmap_new` — finding a block of a file, and adding one;
* `wp_inodeReadLoop` — reading changes nothing and returns the bytes;
* `wp_inodeWriteLoop`, `Wrote` — what writing does to the bytes and to the blocks;
* `wp_inodeUpdate` — the disk inode becomes the one in memory.

Design notes: blocks that a transaction writes are counted under the names of their owners,
so that the count does not depend on where the blocks are.
-/
import Mathlib.Data.List.GetD
import Mcertikos.Fs.Owner
import Mcertikos.Lib.Budget

namespace Mcertikos

namespace Fs

open Finset Function Prog Budget

/-! ### Transactions -/

/-- The name of a block in a transaction. -/
inductive Tag where
  | own (o : Owner)
  | sec (s : ℕ)
  deriving DecidableEq

/-- Where a block is. -/
def Ghost.sector (g : Ghost) : Tag → Option ℕ
  | .own o => g.own o
  | .sec s => some s

/-- The state of the log, and the blocks that the transaction has paid for. -/
structure Txn where
  busy : Bool
  ready : Bool
  paid : Finset Tag
  spent : ℕ

/-- The transaction may be as big as it likes. -/
def Permissive (ok : Stop → Prop) : Prop := ok tooBig ∧ ok noBuffers

/-- The transaction has paid for these blocks. -/
def Txn.Pays (ok : Stop → Prop) (e : Txn) (N : Finset Tag) : Prop :=
  Permissive ok ∨ (e.ready = true ∧ N ⊆ e.paid)

/-- No buffer is held, and the blocks of the transaction are paid for. -/
structure Paid (G : Geom) (ok : Stop → Prop) (t : View) (g : Ghost) (e : Txn) : Prop where
  held : t.held = fun _ => none
  busy : t.busy = e.busy
  ready : t.ready = e.ready
  room : Permissive ok ∨ (logsize ≤ G.nlog ∧ e.spent ≤ 7 ∧ Covers g.sector t.logged e.paid e.spent)

/-- The state of the file system between its operations on blocks. -/
structure Work (G : Geom) (ok : Stop → Prop) (t : View) (g : Ghost) (e : Txn) : Prop
    extends Paid G ok t g e where
  maps : Maps G t.blk g

/-- The failure that an operation on blocks may run into whatever it does: there is no
transaction. -/
structure Lax (ok : Stop → Prop) (e : Txn) : Prop where
  outside : e.busy = false → ok outsideTrans

/-- Everything has stayed where it was. -/
def Ghost.Extends (g g' : Ghost) : Prop := ∀ {o b}, g.own o = some b → g'.own o = some b

section Room

variable {G : Geom} {ok : Stop → Prop} {t : View} {g g' : Ghost} {e : Txn} {S : Finset ℕ}

variable {N : Finset Tag}

theorem Txn.Pays.mono {N' : Finset Tag} (h : e.Pays ok N) (hN : N' ⊆ N) : e.Pays ok N' :=
  h.imp_right fun h => ⟨h.1, hN.trans h.2⟩

theorem Ghost.Extends.sector (h : g.Extends g') {p : Tag} {s : ℕ} (hs : g.sector p = some s) :
    g'.sector p = some s := by
  cases p with
  | own o => exact h hs
  | sec s' => exact hs

theorem Paid.mono (h : Paid G ok t g e) (hsub : g.Extends g') : Paid G ok t g' e :=
  ⟨h.held, h.busy, h.ready, h.room.imp_right fun ⟨h1, h2, hc⟩ =>
    ⟨h1, h2, hc.rename fun _ _ _ => hsub.sector⟩⟩

theorem Paid.setK (h : Paid G ok t g e) (k : Kmem) : Paid G ok (t.setK k) g e :=
  ⟨h.held, h.busy, h.ready, h.room⟩

theorem Work.setK (h : Work G ok t g e) (k : Kmem) : Work G ok (t.setK k) g e :=
  ⟨h.toPaid.setK k, h.maps⟩

/-- The blocks of `S` are paid for. -/
def Txn.Backs (ok : Stop → Prop) (e : Txn) (g : Ghost) (S : Finset ℕ) : Prop :=
  Permissive ok ∨ (e.ready = true ∧ S ⊆ named g.sector e.paid)

/-- There is room for the blocks that are paid for, also while another buffer is held. -/
theorem Paid.room_hold (h : Paid G ok t g e) (hS : e.Backs ok g S) (b sec : ℕ) :
    Room G.area ok (t.hold b sec) S := by
  rcases h.room with hp | ⟨hlog, hspent, hc⟩
  · exact .inl hp
  · rcases hS with hp | ⟨hready, hS⟩
    · exact .inl hp
    · refine .inr ⟨h.ready.trans hready, hlog, ?_⟩
      have hcard := hc.card_le hS
      have hpins : (t.hold b sec).pins ∪ S ⊆ insert sec (t.logged ∪ S) := by
        refine union_subset ?_ (subset_union_right.trans (subset_insert ..))
        have hp : (t.hold b sec).pins ⊆ insert sec (pinned t.held t.logged) := pinned_update_subset
        rw [h.held, pinned_none] at hp
        exact hp.trans (insert_subset_insert _ subset_union_left)
      calc ((t.hold b sec).pins ∪ S).card ≤ (insert sec (t.logged ∪ S)).card :=
            card_le_card hpins
        _ ≤ (t.logged ∪ S).card + 1 := card_insert_le ..
        _ ≤ 8 := by omega

theorem Paid.roomFor (h : Paid G ok t g e) (hS : e.Backs ok g S) : Room G.area ok t S := by
  rcases h.room with hp | ⟨hlog, hspent, hc⟩
  · exact .inl hp
  · rcases hS with hp | ⟨hready, hS⟩
    · exact .inl hp
    · refine .inr ⟨h.ready.trans hready, hlog, ?_⟩
      have := hc.card_le hS
      rw [View.pins, h.held, pinned_none]
      omega

theorem Txn.Pays.covered (h : e.Pays ok N)
    (hS : ∀ s ∈ S, ∃ p ∈ N, g.sector p = some s) : e.Backs ok g S :=
  h.imp_right fun h => ⟨h.1, fun s hs => by
    obtain ⟨p, hp, hs⟩ := hS s hs
    exact mem_named.mpr ⟨p, h.2 hp, hs⟩⟩

/-- The transaction has at most as many blocks as it has paid for. -/
theorem Paid.card_logged (h : Paid G ok t g e) : ok noBuffers ∨ t.logged.card ≤ 7 := by
  refine h.room.imp And.right fun ⟨_, hspent, hc⟩ => ?_
  have := hc.card_le (empty_subset _)
  rw [union_empty] at this
  omega

/-- Blocks can be read. -/
theorem Paid.readable (h : Paid G ok t g e) {sec : ℕ} (hlt : sec < G.dataEnd) :
    Readable G.area ok t sec := by
  refine ⟨Geom.lt_of_lt_dataEnd hlt, Geom.not_holds hlt, ?_⟩
  rintro f (⟨-, i, hi⟩ | ⟨rfl, hn⟩)
  · rw [h.held] at hi
    cases hi
  · refine h.card_logged.resolve_right fun hle => ?_
    rw [h.held, pinned_none] at hn
    unfold nbuf at hn
    omega

theorem Paid.outside (h : Paid G ok t g e) (hok : Lax ok e) : t.busy = false → ok outsideTrans :=
  fun hb => hok.outside (h.busy ▸ hb)

/-- A block that is paid for gets new contents. -/
theorem Paid.put (h : Paid G ok t g e) (hp : e.Pays ok N) {s : ℕ}
    (hs : ∃ p ∈ N, g.sector p = some s) (data : Block) : Paid G ok (t.put s data) g e := by
  refine ⟨h.held, h.busy, h.ready, ?_⟩
  rcases h.room with hperm | ⟨hlog, hspent, hc⟩
  · exact .inl hperm
  · rcases hp with hperm | ⟨-, hp⟩
    · exact .inl hperm
    · obtain ⟨p, hpN, hps⟩ := hs
      exact .inr ⟨hlog, hspent, hc.use (hp hpN) hps⟩

end Room

/-! ### Steps on kernel memory -/

section Mem

variable {A : LogArea} {ok : Stop → Prop} {t : View} {β : Type} {R : β → View → Prop}

theorem wp_getInode {ip : ℕ} {f : Inode → FsM β} (h : Wp (rules A ok) (f (t.k.inode ip)) R t) :
    Wp (rules A ok) (getInode ip >>= f) R t := h

theorem wp_modifyMem {u : Kmem → Kmem} {f : PUnit → FsM β}
    (h : Wp (rules A ok) (f ⟨⟩) R (t.setK (u t.k))) : Wp (rules A ok) (modifyMem u >>= f) R t := h

theorem wp_modifyInode {ip : ℕ} {u : Dinode → Dinode} {f : PUnit → FsM β}
    (h : Wp (rules A ok) (f ⟨⟩) R (t.setK (t.k.setDinode ip (u (t.k.inode ip).d)))) :
    Wp (rules A ok) (modifyInode ip u >>= f) R t := h

end Mem

/-- Slot `ip` has the inode `x`, with the copy `d`. -/
structure Caches (k : Kmem) (ip x : ℕ) (d : Dinode) : Prop where
  dev : (k.inode ip).dev = rootdev
  inum : (k.inode ip).inum = x
  copy : (k.inode ip).d = d

variable {d : Dinode} {x n off m : ℕ} {G : Geom}

theorem Caches.setDinode {k : Kmem} {ip : ℕ} (h : Caches k ip x d) (d' : Dinode) :
    Caches (k.setDinode ip d') ip x d' := by
  unfold Kmem.setDinode
  refine ⟨?_, ?_, ?_⟩ <;> rw [Kmem.setInode_self]
  · exact h.dev
  · exact h.inum

theorem Kmem.setDinode_setDinode (k : Kmem) (ip : ℕ) (d d' : Dinode) :
    (k.setDinode ip d).setDinode ip d' = k.setDinode ip d' := by
  unfold Kmem.setDinode Kmem.setInode
  dsimp only
  rw [update_self, update_idem]

theorem Caches.setDinode_self {k : Kmem} {ip : ℕ} (h : Caches k ip x d) : k.setDinode ip d = k := by
  unfold Kmem.setDinode Kmem.setInode
  rw [← h.copy]
  have : update k.inode ip { k.inode ip with d := (k.inode ip).d } = k.inode :=
    update_eq_self ip k.inode
  rw [this]

/-! ### Finding a block -/

section Bmap

variable {G : Geom} {ok : Stop → Prop} {t : View} {g : Ghost} {e : Txn} {ip x bn b : ℕ}

theorem Maps.pos_of_own {blk : ℕ → Block} {o : Owner} (h : Maps G blk g) (ho : g.own o = some b) :
    b ≠ 0 := by
  have := (h.marks.inside ho).1
  unfold Geom.dataStart at this
  omega

/-- An inode with an address. -/
theorem wp_bmapAddr_old {Q : ℕ → View → Prop} {i : ℕ} (hmaps : Maps G t.blk g)
    (hc : Caches t.k ip x (g.V x)) (hi : i ≤ ndirect) (hb : g.own (.slot x i) = some b) (hQ : Q b t) :
    Wp (rules G.area ok) (bmapAddr ip i) Q t := by
  have haddr : (t.k.inode ip).d.addr i = b := by
    rw [hc.copy, hmaps.addr x i hi, hb]
    rfl
  refine wp_getInode ?_
  rw [haddr, if_neg (hmaps.pos_of_own hb)]
  exact hQ

/-- **`bmap`** of a block that the file has. -/
theorem wp_bmap_old {Q : ℕ → View → Prop} (hmaps : Maps G t.blk g) (hc : Caches t.k ip x (g.V x))
    (hread : ∀ sec < G.dataEnd, Readable G.area ok t sec) (hb : g.own (.data x bn) = some b)
    (hQ : Q b t) : Wp (rules G.area ok) (bmap ip bn) Q t := by
  unfold bmap
  by_cases hbn : bn < ndirect
  · rw [if_pos hbn]
    exact wp_bmapAddr_old hmaps hc hbn.le (by rwa [Owner.slot_of_lt hbn]) hQ
  · have hadd : ndirect + (bn - ndirect) = bn := by omega
    have hlt : bn - ndirect < nindirect := by
      by_contra hge
      have hmax : maxfile ≤ bn := by
        unfold maxfile
        omega
      rw [hmaps.short x bn hmax] at hb
      cases hb
    obtain ⟨ib, hib⟩ : ∃ ib, g.own (.ind x) = some ib := by
      cases hind : g.own (.ind x) with
      | some ib => exact ⟨ib, rfl⟩
      | none =>
        rw [← hadd, hmaps.bare hind] at hb
        cases hb
    have hentry : (t.blk ib).entry (bn - ndirect) = b := by
      rw [hmaps.entry hib _ hlt, hadd, hb]
      rfl
    rw [if_neg hbn, if_pos hlt]
    refine Wp.bind (Q := fun addr t' => addr = ib ∧ t' = t)
      (wp_bmapAddr_old hmaps hc (le_refl _) (by rwa [Owner.slot_ndirect]) ⟨rfl, rfl⟩) ?_
    rintro addr t' ⟨rfl, rfl⟩
    refine wp_getInode ?_
    rw [hc.dev]
    refine wp_reading (hread _ (hmaps.marks.inside hib).2) fun bp _ hfree hm => wp_data ?_
    rw [hentry, if_neg (hmaps.pos_of_own hb)]
    exact pre_release hfree hm hQ

end Bmap

/-! ### Adding a block -/

/-- The attributes of an inode, without its addresses. -/
structure SameAttr (d d' : Dinode) : Prop where
  type : d'.type = d.type
  major : d'.major = d.major
  minor : d'.minor = d.minor
  nlink : d'.nlink = d.nlink
  size : d'.size = d.size

theorem SameAttr.refl (d : Dinode) : SameAttr d d := ⟨rfl, rfl, rfl, rfl, rfl⟩

theorem SameAttr.trans {d' d'' : Dinode} (h : SameAttr d d') (h' : SameAttr d' d'') :
    SameAttr d d'' :=
  ⟨h'.type.trans h.type, h'.major.trans h.major, h'.minor.trans h.minor, h'.nlink.trans h.nlink,
    h'.size.trans h.size⟩

theorem SameAttr.setAddr (d : Dinode) (i v : ℕ) : SameAttr d (d.setAddr i v) :=
  ⟨rfl, rfl, rfl, rfl, rfl⟩

/-- The contents of block `j` of a file; a block that is not there counts as zero. -/
def Ghost.block (g : Ghost) (x j : ℕ) : Block :=
  if g.own (.data x j) = none then Block.zeroed else g.C x j

/-- The file `x` has got the block `b` as its block `bn`. -/
structure Grows (g g' : Ghost) (x bn b : ℕ) : Prop where
  owned : g'.own (.data x bn) = some b
  keeps : g.Extends g'
  data : ∀ {y j}, ¬ (y = x ∧ j = bn) → g'.own (.data y j) = g.own (.data y j)
  ind : ∀ {y}, g'.own (.ind y) ≠ none → g.own (.ind y) ≠ none ∨ (y = x ∧ ndirect ≤ bn)
  block : ∀ y j, g'.block y j = g.block y j
  other : ∀ {y}, y ≠ x → g'.V y = g.V y
  attr : SameAttr (g.V x) (g'.V x)
  stale : ∀ {y}, g'.stale y → y = x ∨ g.stale y

section Alloc

variable {G : Geom} {ok : Stop → Prop} {t : View} {g : Ghost} {e : Txn} {ip x bn i j b : ℕ}

variable {o : Owner} {Q : ℕ → View → Prop} {y : ℕ}

theorem Ghost.extends_take (ho : g.own o = none) : g.Extends (g.take o b) := by
  intro o' c hc
  have hne : o' ≠ o := fun he => by
    rw [he, ho] at hc
    cases hc
  exact (update_of_ne hne ..).trans hc

/-- There is a data block for each owner among `N` and for those that have one. -/
def Spacious (G : Geom) (ok : Stop → Prop) (g : Ghost) (N : Finset Tag) : Prop :=
  ok outOfBlocks ∨ ∃ T : Finset Owner, (∀ o, Tag.own o ∈ N → o ∈ T) ∧
    T.card ≤ G.dataEnd - G.dataStart ∧ ∀ o, g.own o ≠ none → o ∈ T

section Spacious

variable {N N' : Finset Tag} {g' : Ghost}

theorem Spacious.grow (h : Spacious G ok g N)
    (hg : ∀ o, g'.own o ≠ none → g.own o ≠ none ∨ Tag.own o ∈ N) (hN : N' ⊆ N) :
    Spacious G ok g' N' :=
  h.imp_right fun ⟨T, h1, h2, h3⟩ => ⟨T, fun o ho => h1 o (hN ho), h2, fun o ho =>
    (hg o ho).elim (h3 o) (h1 o)⟩

theorem Spacious.mono (h : Spacious G ok g N) (hN : N' ⊆ N) : Spacious G ok g N' :=
  h.grow (fun _ ho => .inl ho) hN

/-- The data area is not full before every owner has its block. -/
theorem Spacious.full {blk : ℕ → Block} {o : Owner} (h : Spacious G ok g N) (hmaps : Maps G blk g)
    (ho : Tag.own o ∈ N) (hnone : g.own o = none) (hfull : ∀ b, ¬ Fresh G blk b) : ok outOfBlocks := by
  refine h.resolve_right ?_
  rintro ⟨T, hN, hcard, hT⟩
  -- the blocks of the data area are those of owners in `T` other than `o`
  have hsurj : Set.SurjOn (fun o => (g.own o).getD 0) (T.erase o : Finset Owner)
      (Ico G.dataStart G.dataEnd : Finset ℕ) := by
    intro b hb
    obtain ⟨h1, h2⟩ := mem_Ico.mp (mem_coe.mp hb)
    have hbit : (blk G.bitmap).bit b = true := by
      by_contra hclear
      exact hfull b ⟨h1, h2, by simpa using hclear⟩
    obtain hlow | ⟨o', ho'⟩ := (hmaps.marks.bit b h2).mp hbit
    · exact absurd h1 (Nat.not_le.mpr hlow)
    · refine ⟨o', mem_coe.mpr (mem_erase.mpr ⟨fun he => ?_, hT o' ?_⟩), ?_⟩
      · rw [he, hnone] at ho'
        cases ho'
      · rw [ho']
        exact nofun
      · show (g.own o').getD 0 = b
        rw [ho']
        rfl
  have hle := card_le_card_of_surjOn _ hsurj
  rw [Nat.card_Ico] at hle
  have hlt := card_erase_lt_of_mem (hN o ho)
  omega

end Spacious

/-- `block_alloc` where there is room for a new block. -/
theorem wp_blockAlloc_maps (hfull : (∀ b, ¬ Fresh G t.blk b) → ok outOfBlocks)
    (hout : t.busy = false → ok outsideTrans) (hmaps : Maps G t.blk g) (hspare : Spares G t)
    (hroom : ∀ b, Room G.area ok t {G.bitmap, b}) (hQ : ∀ b, Fresh G t.blk b → Q b (t.alloc G b)) :
    Wp (rules G.area ok) (blockAlloc rootdev) Q t :=
  wp_blockAlloc (fun hall => hfull fun b hb => absurd (hall b hb.start_le hb.lt_end) (by
      rw [hb.clear]
      decide)) hout hmaps.super hspare
    (fun b hb => (hmaps.marks.bit b (hb.trans_le G.dataStart_le)).mpr (.inl hb))
    (fun b _ _ _ => hroom b) ((hroom 0).mono (empty_subset _))
    fun b h1 h2 h3 => hQ b ⟨h1, h2, h3⟩

theorem Txn.Pays.covered_take (hp : e.Pays ok {.sec G.bitmap, .own o}) (b : ℕ) :
    e.Backs ok (g.take o b) {G.bitmap, b} := by
  refine hp.covered fun s hs => ?_
  rcases mem_insert.mp hs with rfl | hs
  · exact ⟨.sec G.bitmap, by simp, rfl⟩
  · rw [mem_singleton.mp hs]
    exact ⟨.own o, by simp, g.take_self⟩

theorem Paid.alloc {g' : Ghost} (h : Paid G ok t g e) (hsub : g.Extends g')
    (hp : e.Pays ok {.sec G.bitmap, .own o}) (ho : g'.own o = some b) :
    Paid G ok (t.alloc G b) g' e :=
  ((h.mono hsub).put hp ⟨.sec G.bitmap, by simp, rfl⟩ _).put hp ⟨.own o, by simp, ho⟩ _

theorem Ghost.extends_takeAddr (ho : g.own (.slot x i) = none) : g.Extends (g.takeAddr x i b) :=
  Ghost.extends_take ho

theorem wp_bmapAddr_new (hw : Work G ok t g e) (hok : Lax ok e)
    (hc : Caches t.k ip x (g.V x)) (hx : x < G.ninodes) (htype : (g.V x).type ≠ 0) (hi : i ≤ ndirect)
    (hnone : g.own (.slot x i) = none) (hp : e.Pays ok {.sec G.bitmap, .own (.slot x i)})
    (hspace : Spacious G ok g {.sec G.bitmap, .own (.slot x i)})
    (hQ : ∀ b t', Fresh G t.blk b → Work G ok t' (g.takeAddr x i b) e →
      t'.k = t.k.setDinode ip ((g.takeAddr x i b).V x) → Q b t') :
    Wp (rules G.area ok) (bmapAddr ip i) Q t := by
  have haddr : (t.k.inode ip).d.addr i = 0 := by
    rw [hc.copy, hw.maps.addr x i hi, hnone]
    rfl
  refine wp_getInode ?_
  rw [haddr, if_pos rfl, hc.dev]
  refine Prog.wp_bind.mpr (wp_blockAlloc_maps (hspace.full hw.maps (by simp) hnone)
    (hw.outside hok) hw.maps (Spares.of_none hw.held) (fun b =>
    (hw.toPaid.mono (Ghost.extends_take hnone)).roomFor (hp.covered_take b)) fun b hf => ?_)
  have hwork : Work G ok (t.alloc G b) (g.takeAddr x i b) e :=
    ⟨hw.toPaid.alloc (Ghost.extends_takeAddr hnone) hp g.takeAddr_own_self,
      hw.maps.takeAddr hf hx htype hi hnone⟩
  refine hQ b _ hf (hwork.setK _) ?_
  show t.k.setDinode ip (((t.alloc G b).k.inode ip).d.setAddr i b) = t.k.setDinode ip _
  rw [show (t.alloc G b).k = t.k from rfl, hc.copy]
  rw [Ghost.takeAddr_V_self]

theorem Ghost.block_of_none {j : ℕ} (h : g.own (.data y j) = none) : g.block y j = Block.zeroed :=
  if_pos h

theorem Ghost.block_of_some {j b : ℕ} (h : g.own (.data y j) = some b) : g.block y j = g.C y j :=
  if_neg (by rw [h]; exact nofun)

theorem Ghost.block_congr {g' : Ghost} {j y' j' : ℕ}
    (ho : g'.own (.data y' j') = g.own (.data y j)) (hC : g'.C y' j' = g.C y j) :
    g'.block y' j' = g.block y j := by
  unfold block
  rw [ho, hC]

/-- A direct block. -/
theorem grows_takeAddr (hi : i < ndirect) (hnone : g.own (.slot x i) = none) :
    Grows g (g.takeAddr x i b) x i b := by
  have hslot : Owner.slot x i = .data x i := Owner.slot_of_lt hi
  have hown : ∀ {o}, o ≠ .data x i → (g.takeAddr x i b).own o = g.own o := fun ho =>
    g.takeAddr_own_of_ne (hslot ▸ ho)
  have hself : (g.takeAddr x i b).own (.data x i) = some b := by
    rw [← hslot]
    exact g.takeAddr_own_self
  refine ⟨hself, Ghost.extends_takeAddr hnone, fun hne => hown (by simpa using hne), fun hind => ?_,
    fun y j => ?_, fun hy => g.takeAddr_V_of_ne hy, ?_, fun hs => hs⟩
  · rw [hown (o := .ind _) nofun] at hind
    exact .inl hind
  · by_cases hyj : y = x ∧ j = i
    · rw [hyj.1, hyj.2, Ghost.block_of_some hself, Ghost.block_of_none (hslot ▸ hnone)]
      exact Ghost.store_C_self ..
    · exact Ghost.block_congr (hown (by simpa using hyj)) (Ghost.store_C_of_ne _ _ hyj)
  · rw [g.takeAddr_V_self]
    exact SameAttr.setAddr ..

/-- The indirect block is not one of the blocks of the file. -/
theorem block_takeInd {blk : ℕ → Block} (hmaps : Points G blk g) (hnone : g.own (.ind x) = none)
    (y j : ℕ) :
    (g.takeAddr x ndirect b).own (.data y j) = g.own (.data y j) ∧
      (g.takeAddr x ndirect b).block y j = g.block y j := by
  have hne : Owner.data y j ≠ .slot x ndirect := by
    rw [Owner.slot_ndirect]
    exact nofun
  have hown : (g.takeAddr x ndirect b).own (.data y j) = g.own (.data y j) :=
    g.takeAddr_own_of_ne hne
  refine ⟨hown, ?_⟩
  by_cases hyj : y = x ∧ j = ndirect
  · have hdata : g.own (.data x ndirect) = none := hmaps.bare hnone 0
    rw [hyj.1, hyj.2] at hown ⊢
    rw [Ghost.block_of_none (hown.trans hdata), Ghost.block_of_none hdata]
  · exact Ghost.block_congr hown (Ghost.store_C_of_ne _ _ hyj)

theorem Ghost.extends_takeEntry (ho : g.own (.data x (ndirect + j)) = none) :
    g.Extends (g.takeEntry x j b) := Ghost.extends_take ho

theorem grows_takeEntry (hnone : g.own (.data x (ndirect + j)) = none) :
    Grows g (g.takeEntry x j b) x (ndirect + j) b := by
  have hown : ∀ {o}, o ≠ .data x (ndirect + j) → (g.takeEntry x j b).own o = g.own o :=
    g.takeEntry_own_of_ne
  have hself : (g.takeEntry x j b).own (.data x (ndirect + j)) = some b := g.takeEntry_own_self
  refine ⟨hself, Ghost.extends_takeEntry hnone, fun hne => hown (by simpa using hne), fun hind => ?_,
    fun y i => ?_, fun _ => rfl, SameAttr.refl _, fun hs => .inr hs⟩
  · rw [hown (o := .ind _) nofun] at hind
    exact .inl hind
  · by_cases hyi : y = x ∧ i = ndirect + j
    · rw [hyi.1, hyi.2, Ghost.block_of_some hself, Ghost.block_of_none hnone]
      exact Ghost.store_C_self ..
    · exact Ghost.block_congr (hown (by simpa using hyi)) (Ghost.store_C_of_ne _ _ hyi)

/-- A block behind an indirect block that is new as well. -/
theorem grows_takeInd {blk : ℕ → Block} (ib : ℕ) (hmaps : Points G blk g) (hind : g.own (.ind x) = none)
    (hnone : g.own (.data x (ndirect + j)) = none) :
    Grows g ((g.takeAddr x ndirect ib).takeEntry x j b) x (ndirect + j) b := by
  have hslot : Owner.slot x ndirect = .ind x := Owner.slot_ndirect
  have hkeep := block_takeInd (b := ib) hmaps hind
  have hgrows := grows_takeEntry (b := b) (((hkeep x (ndirect + j)).1).trans hnone)
  refine ⟨hgrows.owned, fun ho => hgrows.keeps (Ghost.extends_takeAddr (hslot ▸ hind) ho),
    fun hne => (hgrows.data hne).trans (hkeep ..).1, fun {y} hy => ?_,
    fun y j => (hgrows.block y j).trans (hkeep y j).2, fun hy => g.takeAddr_V_of_ne hy,
    ?_, fun hs => hs⟩
  · by_cases hyx : y = x
    · exact .inr ⟨hyx, Nat.le_add_right ..⟩
    · have hne : Owner.ind y ≠ .slot x ndirect := by
        rw [hslot]
        simpa using hyx
      rcases hgrows.ind hy with h | h
      · rw [g.takeAddr_own_of_ne hne] at h
        exact .inl h
      · exact absurd h.1 hyx
  · show SameAttr _ ((g.takeAddr x ndirect ib).V x)
    rw [g.takeAddr_V_self]
    exact SameAttr.setAddr ..

/-- The blocks that `bmap` may have to write to add block `bn`. -/
def bmapTags (G : Geom) (x bn : ℕ) : Finset Tag :=
  {.sec G.bitmap, .own (.data x bn)} ∪ if ndirect ≤ bn then {.own (.ind x)} else ∅

theorem data_mem_bmapTags (G : Geom) (x bn : ℕ) : Tag.own (.data x bn) ∈ bmapTags G x bn :=
  mem_union_left _ (mem_insert_of_mem (mem_singleton_self _))

/-- The second half of `bmap`: a block behind the indirect block `ib`. -/
theorem wp_bmap_entry (hw : Work G ok t g e) (hok : Lax ok e) {ib : ℕ}
    (hib : g.own (.ind x) = some ib) (hj : j < nindirect)
    (hnone : g.own (.data x (ndirect + j)) = none) (hp : e.Pays ok (bmapTags G x (ndirect + j)))
    (hspace : Spacious G ok g (bmapTags G x (ndirect + j)))
    (hQ : ∀ b t', Work G ok t' (g.takeEntry x j b) e → t'.k = t.k → Q b t') :
    Wp (rules G.area ok) (do
      let bp ← bufcacheRead rootdev ib
      let a ← bufData bp
      if a.entry j = 0 then do
        let addr ← blockAlloc rootdev
        let a ← bufData bp
        setBufData bp (a.setEntry j addr)
        logWrite bp
        bufcacheRelease bp
        pure addr
      else do
        bufcacheRelease bp
        pure (a.entry j)) Q t := by
  have hentry : (t.blk ib).entry j = 0 := by
    rw [hw.maps.entry hib j hj, hnone]
    rfl
  have hib_lt := (hw.maps.marks.inside hib).2
  have hp1 : e.Pays ok {.sec G.bitmap, .own (.data x (ndirect + j))} :=
    hp.mono subset_union_left
  have hp2 : e.Pays ok {.own (.ind x)} := hp.mono (by
    unfold bmapTags
    rw [if_pos (Nat.le_add_right ..)]
    exact subset_union_right)
  refine wp_reading (hw.readable hib_lt) fun bp _ hfree hm => wp_data ?_
  rw [hentry, if_pos rfl]
  have hspare : Spares G (t.hold bp ib) := Spares.hold hw.held (hw.maps.apart hib).super
    (hw.maps.apart hib).bitmap (hw.maps.marks.bit_of_own hib)
  refine Prog.wp_bind.mpr (wp_blockAlloc_maps (t := t.hold bp ib)
    (hspace.full hw.maps (data_mem_bmapTags ..) hnone) (hw.outside hok) hw.maps hspare (fun b =>
    (hw.toPaid.mono (Ghost.extends_take hnone)).room_hold (hp1.covered_take b) bp ib) fun b hf => ?_)
  have hf : Fresh G t.blk b := hf
  -- the buffer of the indirect block is still held
  have hpaid : Paid G ok (t.alloc G b) (g.takeEntry x j b) e :=
    hw.toPaid.alloc (Ghost.extends_takeEntry hnone) hp1 g.takeEntry_own_self
  have hne : b ≠ ib := fun he => hw.maps.marks.not_owned hf.lt_end hf.clear _ (he ▸ hib)
  have hind : (g.takeEntry x j b).own (.ind x) = some ib := Ghost.extends_takeEntry hnone hib
  have hsame : (t.alloc G b).blk ib = t.blk ib := allocBlk_of_ne hne.symm (hw.maps.apart hib).bitmap
  show Wp _ (bufData bp >>= _) Q ((t.alloc G b).hold bp ib)
  refine wp_data ?_
  rw [hsame]
  have hroom : Room G.area ok (t.alloc G b) {ib} := hpaid.roomFor (hp2.covered fun s hs => by
    rw [mem_singleton.mp hs]
    exact ⟨.own (.ind x), by simp, hind⟩)
  refine pre_put (hpaid.outside hok) hroom (mem_singleton_self ib)
    (hw.maps.apart hib).super hfree hm fun _ => ?_
  refine hQ b _ ⟨hpaid.put hp2 ⟨.own (.ind x), by simp, hind⟩ _, ?_⟩ rfl
  exact hw.maps.takeEntry hf hib hj hnone

/-- **`bmap`** of a block that the file does not have. -/
theorem wp_bmap_new (hw : Work G ok t g e) (hok : Lax ok e)
    (hc : Caches t.k ip x (g.V x)) (hx : x < G.ninodes) (htype : (g.V x).type ≠ 0) (hbn : bn < maxfile)
    (hnone : g.own (.data x bn) = none) (hp : e.Pays ok (bmapTags G x bn))
    (hspace : Spacious G ok g (bmapTags G x bn))
    (hQ : ∀ b t' g', Work G ok t' g' e → Grows g g' x bn b → t'.k = t.k.setDinode ip (g'.V x) →
      Q b t') :
    Wp (rules G.area ok) (bmap ip bn) Q t := by
  unfold bmap
  by_cases hlt : bn < ndirect
  · rw [if_pos hlt]
    have hslot : Owner.slot x bn = .data x bn := Owner.slot_of_lt hlt
    refine wp_bmapAddr_new hw hok hc hx htype hlt.le (hslot ▸ hnone) ?_ ?_ fun b t' _ hw' hk =>
      hQ b t' _ hw' (grows_takeAddr hlt (hslot ▸ hnone)) hk
    all_goals rw [hslot]
    · exact hp.mono subset_union_left
    · exact hspace.mono subset_union_left
  · obtain ⟨j, rfl⟩ : ∃ j, bn = ndirect + j := ⟨bn - ndirect, by omega⟩
    have hj : j < nindirect := by
      unfold maxfile at hbn
      omega
    rw [if_neg hlt, Nat.add_sub_cancel_left, if_pos hj]
    cases hind : g.own (.ind x) with
    | some ib =>
      refine Wp.bind (Q := fun addr t' => addr = ib ∧ t' = t)
        (wp_bmapAddr_old hw.maps hc (le_refl _) (by rwa [Owner.slot_ndirect]) ⟨rfl, rfl⟩) ?_
      rintro addr t' ⟨rfl, rfl⟩
      refine wp_getInode ?_
      rw [hc.dev]
      refine wp_bmap_entry hw hok hind hj hnone hp hspace fun b t' hw' hk => hQ b t' _ hw'
        (grows_takeEntry hnone) ?_
      rw [hk]
      exact hc.setDinode_self.symm
    | none =>
      have hslot : Owner.slot x ndirect = .ind x := Owner.slot_ndirect
      have hsub : ({.sec G.bitmap, .own (.ind x)} : Finset Tag) ⊆ bmapTags G x (ndirect + j) := by
        unfold bmapTags
        rw [if_pos (Nat.le_add_right ..)]
        intro p hp
        simp only [mem_insert, mem_singleton] at hp
        simp only [mem_union, mem_insert, mem_singleton]
        rcases hp with rfl | rfl <;> simp
      refine Prog.wp_bind.mpr (wp_bmapAddr_new hw hok hc hx htype (le_refl _) (hslot ▸ hind)
        (hslot ▸ hp.mono hsub) (hslot ▸ hspace.mono hsub) fun ib t1 _ hw1 hk1 => wp_getInode ?_)
      -- the indirect block is new as well
      have hc1 : Caches t1.k ip x ((g.takeAddr x ndirect ib).V x) := by
        rw [hk1]
        exact hc.setDinode _
      have hkeep := block_takeInd (b := ib) hw.maps.toPoints hind
      have hib : (g.takeAddr x ndirect ib).own (.ind x) = some ib := by
        rw [← hslot]
        exact g.takeAddr_own_self
      have hnone1 : (g.takeAddr x ndirect ib).own (.data x (ndirect + j)) = none :=
        ((hkeep x (ndirect + j)).1).trans hnone
      have hspace1 : Spacious G ok (g.takeAddr x ndirect ib) (bmapTags G x (ndirect + j)) := by
        refine hspace.grow (fun o ho => ?_) subset_rfl
        by_cases hne : o = .ind x
        · exact .inr (hne ▸ hsub (by simp))
        · rw [g.takeAddr_own_of_ne (hslot ▸ hne)] at ho
          exact .inl ho
      rw [hc1.dev]
      refine wp_bmap_entry hw1 hok hib hj hnone1 hp hspace1 fun b t' hw' hk => hQ b t' _ hw' ?_ ?_
      · exact grows_takeInd _ hw.maps.toPoints hind hnone
      · rw [hk, hk1]
        rfl

end Alloc

/-! ### Reading -/

/-- Byte `i` of a file. -/
def Ghost.byte (g : Ghost) (x i : ℕ) : UInt8 := (g.block x (i / bsize)).1 (i % bsize)

/-- `n` bytes of a file. -/
def Ghost.bytes (g : Ghost) (x off n : ℕ) : Bytes := (List.range n).map fun i => g.byte x (off + i)

/-- The numbers of the blocks with the bytes from `off` on. -/
def blocksOf (off n : ℕ) : Finset ℕ := (Ico off (off + n)).image (· / bsize)

theorem mem_blocksOf {j : ℕ} : j ∈ blocksOf off n ↔ ∃ i, off ≤ i ∧ i < off + n ∧ i / bsize = j := by
  unfold blocksOf
  simp only [mem_image, mem_Ico, and_assoc]

theorem blocksOf_first (off : ℕ) (hn : 0 < n) : off / bsize ∈ blocksOf off n :=
  mem_blocksOf.mpr ⟨off, le_refl _, by omega, rfl⟩

theorem blocksOf_rest (hm : m ≤ n) : blocksOf (off + m) (n - m) ⊆ blocksOf off n := by
  refine image_subset_image (Ico_subset_Ico ?_ ?_) <;> omega

theorem Ghost.bytes_add (g : Ghost) (x off m n : ℕ) :
    g.bytes x off (m + n) = g.bytes x off m ++ g.bytes x (off + m) n := by
  unfold bytes
  rw [List.range_add, List.map_append, List.map_map]
  congr 1
  refine List.map_congr_left fun i _ => ?_
  rw [comp_apply, Nat.add_assoc]

/-- The bytes up to the end of the block. -/
theorem Ghost.bytes_slice (g : Ghost) (hm : m ≤ bsize - off % bsize) :
    g.bytes x off m = (g.block x (off / bsize)).slice (off % bsize) m := by
  unfold bytes Block.slice
  refine List.map_congr_left fun i hi => ?_
  have hi := List.mem_range.mp hi
  unfold bsize at hm
  unfold byte
  rw [show (off + i) / bsize = off / bsize by unfold bsize; omega,
    show (off + i) % bsize = off % bsize + i by unfold bsize; omega]

section Read

variable {G : Geom} {ok : Stop → Prop} {t : View} {g : Ghost} {ip x : ℕ}

theorem wp_inodeReadLoop {Q : Bytes → View → Prop} (hmaps : Maps G t.blk g)
    (hc : Caches t.k ip x (g.V x)) (hread : ∀ sec < G.dataEnd, Readable G.area ok t sec)
    (k off rem : ℕ) (acc : Bytes) (hk : rem ≤ k)
    (hall : ∀ j ∈ blocksOf off rem, g.own (.data x j) ≠ none)
    (hQ : Q (acc ++ g.bytes x off rem) t) :
    Wp (rules G.area ok) (inodeReadLoop ip k off rem acc) Q t := by
  induction k generalizing off rem acc with
  | zero =>
    obtain rfl : rem = 0 := Nat.le_zero.mp hk
    have hQ : Q (acc ++ []) t := hQ
    rwa [List.append_nil] at hQ
  | succ k ih =>
    unfold inodeReadLoop
    split_ifs with hrem
    · subst hrem
      have hQ : Q (acc ++ []) t := hQ
      rwa [List.append_nil] at hQ
    · set m := min rem (bsize - off % bsize)
      have hpos : 0 < bsize - off % bsize := Nat.sub_pos_of_lt (Nat.mod_lt _ (by decide))
      have hmrem : m ≤ rem := Nat.min_le_left ..
      have hm0 : 0 < m := by omega
      obtain ⟨b, hb⟩ := Option.ne_none_iff_exists'.mp (hall _ (blocksOf_first _ (by omega)))
      refine Wp.bind (Q := fun addr t' => addr = b ∧ t' = t)
        (wp_bmap_old hmaps hc hread hb ⟨rfl, rfl⟩) ?_
      rintro addr t' ⟨rfl, rfl⟩
      refine wp_getInode ?_
      rw [hc.dev]
      refine wp_reading (hread _ (hmaps.marks.inside hb).2) fun bp _ hfree hmod => wp_data ?_
      refine pre_release hfree hmod (ih _ _ _ (by omega) ?_ ?_)
      · exact fun j hj => hall j (blocksOf_rest hmrem hj)
      · rw [hmaps.data hb, ← Ghost.block_of_some hb, ← Ghost.bytes_slice _ (Nat.min_le_right ..),
          List.append_assoc, ← Ghost.bytes_add, Nat.add_sub_cancel' hmrem]
        exact hQ

/-- What `inode_read` returns. -/
def readResult (d : Dinode) (g : Ghost) (x off n : ℕ) : Option Bytes :=
  if d.type = tDev ∨ d.size < off ∨ (off + n) % 2 ^ 32 < off then none
  else some (g.bytes x off (if d.size < off + n then d.size - off else n))

/-- **`inode_read`** of a file without holes. -/
theorem wp_inodeRead {Q : Option Bytes → View → Prop} (hmaps : Maps G t.blk g)
    (hc : Caches t.k ip x (g.V x)) (hread : ∀ sec < G.dataEnd, Readable G.area ok t sec)
    (hdev : (g.V x).type = tDev → (g.V x).major < ndev → ok (.panic "devsw"))
    (hfull : ∀ j, bsize * j < (g.V x).size → g.own (.data x j) ≠ none) (off n : ℕ)
    (hQ : Q (readResult (g.V x) g x off n) t) :
    Wp (rules G.area ok) (inodeRead ip off n) Q t := by
  refine wp_getInode ?_
  rw [hc.copy]
  unfold readResult at hQ
  by_cases htype : (g.V x).type = tDev
  · rw [if_pos htype]
    rw [if_pos (.inl htype)] at hQ
    split_ifs with hmajor
    · exact hQ
    · exact hdev htype (Nat.not_le.mp hmajor)
  · rw [if_neg htype]
    by_cases hrange : (g.V x).size < off ∨ (off + n) % 2 ^ 32 < off
    · rw [if_pos hrange]
      rw [if_pos (.inr hrange)] at hQ
      exact hQ
    · rw [if_neg hrange]
      rw [if_neg (not_or.mpr ⟨htype, hrange⟩)] at hQ
      refine Prog.wp_bind.mpr (wp_inodeReadLoop hmaps hc hread _ off _ [] (le_refl _) ?_ hQ)
      intro j hj
      obtain ⟨i, h1, h2, rfl⟩ := mem_blocksOf.mp hj
      refine hfull _ ?_
      have hle := Nat.mul_div_le i bsize
      split_ifs at h2 <;> omega

end Read

/-! ### Writing -/

/-- The blocks that writing may have to write, apart from the inode. -/
def writeTags (G : Geom) (x off n : ℕ) : Finset Tag :=
  insert (.sec G.bitmap) ((blocksOf off n).image (fun j => .own (.data x j)) ∪
    if ndirect * bsize < off + n then {.own (.ind x)} else ∅)

theorem bmapTags_subset {j : ℕ} (hj : j ∈ blocksOf off n) :
    bmapTags G x j ⊆ writeTags G x off n := by
  obtain ⟨i, h1, h2, rfl⟩ := mem_blocksOf.mp hj
  have hle := Nat.div_mul_le_self i bsize
  intro p hp
  unfold bmapTags at hp
  unfold writeTags
  rcases mem_union.mp hp with hp | hp
  · rcases mem_insert.mp hp with rfl | hp
    · exact mem_insert_self ..
    · rw [mem_singleton.mp hp]
      exact mem_insert_of_mem (mem_union_left _ (mem_image_of_mem _ hj))
  · split_ifs at hp with hind
    · have := Nat.mul_le_mul_right bsize hind
      rw [if_pos (by omega)]
      exact mem_insert_of_mem (mem_union_right _ hp)
    · exact absurd hp (notMem_empty p)

theorem writeTags_take (hm : m ≤ n) : writeTags G x off m ⊆ writeTags G x off n := by
  unfold writeTags
  refine insert_subset_insert _ (union_subset_union ?_ ?_)
  · exact image_subset_image (image_subset_image (Ico_subset_Ico_right (by omega)))
  · split_ifs with h1 h2
    · exact subset_rfl
    · omega
    · exact empty_subset _
    · exact subset_rfl

theorem writeTags_rest (hm : m ≤ n) : writeTags G x (off + m) (n - m) ⊆ writeTags G x off n := by
  unfold writeTags
  refine insert_subset_insert _ (union_subset_union ?_ ?_)
  · exact image_subset_image (blocksOf_rest hm)
  · rw [show off + m + (n - m) = off + n by omega]

/-- The bytes `src` have been written to the file `x` at `off`. -/
structure Wrote (g g' : Ghost) (x off : ℕ) (src : Bytes) : Prop where
  keeps : g.Extends g'
  byte : ∀ y i, g'.byte y i =
    if y = x ∧ off ≤ i ∧ i < off + src.length then src.getD (i - off) 0 else g.byte y i
  data : ∀ {y j}, g'.own (.data y j) ≠ none ↔
    g.own (.data y j) ≠ none ∨ (y = x ∧ j ∈ blocksOf off src.length)
  ind : ∀ {y}, g'.own (.ind y) ≠ none →
    g.own (.ind y) ≠ none ∨ (y = x ∧ ndirect * bsize < off + src.length)
  other : ∀ {y}, y ≠ x → g'.V y = g.V y
  attr : SameAttr (g.V x) (g'.V x)
  stale : ∀ {y}, g'.stale y → y = x ∨ g.stale y
  /-- Without new blocks, the inode has not changed. -/
  calm : (∀ j ∈ blocksOf off src.length, g.own (.data x j) ≠ none) →
    g'.V = g.V ∧ ∀ {y}, g'.stale y → g.stale y

section Wrote

variable {g g₁ g₂ : Ghost} {x off : ℕ} {src src' : Bytes}

theorem wrote_nil (g : Ghost) (x off : ℕ) : Wrote g g x off [] := by
  have hno : blocksOf off ([] : Bytes).length = ∅ := by
    unfold blocksOf
    simp
  refine ⟨fun h => h, fun y i => ?_, ?_, fun h => .inl h, fun _ => rfl, SameAttr.refl _, fun h => .inr h,
    fun _ => ⟨rfl, fun h => h⟩⟩
  · rw [if_neg]
    rintro ⟨-, h1, h2⟩
    rw [List.length_nil] at h2
    omega
  · intro y j
    rw [hno]
    simp

theorem Wrote.append (h₁ : Wrote g g₁ x off src) (src' : Bytes) (h₂ : Wrote g₁ g₂ x (off + src.length) src') :
    Wrote g g₂ x off (src ++ src') := by
  have hlen : (src ++ src').length = src.length + src'.length := List.length_append
  refine ⟨fun h => h₂.keeps (h₁.keeps h), fun y i => ?_, fun {y j} => ?_, fun {y} hy => ?_,
    fun hy => (h₂.other hy).trans (h₁.other hy), h₁.attr.trans h₂.attr, fun hs => ?_, fun hall => ?_⟩
  · rw [h₂.byte, h₁.byte, hlen]
    by_cases hy : y = x
    · by_cases ha : off ≤ i ∧ i < off + src.length
      · rw [if_neg (by omega), if_pos ⟨hy, ha⟩, if_pos ⟨hy, ha.1, by omega⟩,
          List.getD_append _ _ _ _ (by omega)]
      · by_cases hb : off + src.length ≤ i ∧ i < off + src.length + src'.length
        · rw [if_pos ⟨hy, hb⟩, if_pos ⟨hy, by omega, by omega⟩,
            List.getD_append_right _ _ _ _ (by omega), Nat.sub_sub]
        · rw [if_neg (by omega), if_neg (by omega), if_neg (by omega)]
    · rw [if_neg fun h => hy h.1, if_neg fun h => hy h.1, if_neg fun h => hy h.1]
  · rw [h₂.data, h₁.data, or_assoc, ← and_or_left]
    refine or_congr_right (and_congr_right fun _ => ?_)
    rw [mem_blocksOf, mem_blocksOf, mem_blocksOf, hlen]
    constructor
    · rintro (⟨i, h1, h2, h3⟩ | ⟨i, h1, h2, h3⟩)
      · exact ⟨i, h1, by omega, h3⟩
      · exact ⟨i, by omega, by omega, h3⟩
    · rintro ⟨i, h1, h2, h3⟩
      by_cases hi : i < off + src.length
      · exact .inl ⟨i, h1, hi, h3⟩
      · exact .inr ⟨i, by omega, by omega, h3⟩
  · rw [hlen]
    rcases h₂.ind hy with h | ⟨h, hlt⟩
    · exact (h₁.ind h).imp_right fun ⟨h, hlt⟩ => ⟨h, by omega⟩
    · exact .inr ⟨h, by omega⟩
  · rcases h₂.stale hs with h | h
    · exact .inl h
    · exact h₁.stale h
  · obtain ⟨hV1, hs1⟩ := h₁.calm fun j hj => hall j (by
      obtain ⟨i, h1, h2, h3⟩ := mem_blocksOf.mp hj
      exact mem_blocksOf.mpr ⟨i, h1, by omega, h3⟩)
    obtain ⟨hV2, hs2⟩ := h₂.calm fun j hj => h₁.data.mpr (.inl (hall j (by
      obtain ⟨i, h1, h2, h3⟩ := mem_blocksOf.mp hj
      exact mem_blocksOf.mpr ⟨i, by omega, by omega, h3⟩)))
    exact ⟨hV2.trans hV1, fun hs => hs1 (hs2 hs)⟩

/-- The blocks that a file has after writing. -/
theorem Wrote.own (h : Wrote g g₁ x off src) (G : Geom) {o : Owner} (ho : g₁.own o ≠ none) :
    g.own o ≠ none ∨ Tag.own o ∈ writeTags G x off src.length := by
  unfold writeTags
  cases o with
  | data y j =>
    refine (h.data.mp ho).imp_right ?_
    rintro ⟨rfl, hj⟩
    exact mem_insert_of_mem (mem_union_left _ (mem_image_of_mem _ hj))
  | ind y =>
    refine (h.ind ho).imp_right ?_
    rintro ⟨rfl, hlt⟩
    rw [if_pos hlt]
    exact mem_insert_of_mem (mem_union_right _ (mem_singleton_self _))

/-- Writing into a block that is there. -/
theorem wrote_store {b : ℕ} (hb : g.own (.data x (off / bsize)) = some b)
    (hlen : src.length ≤ bsize - off % bsize) :
    Wrote g (g.store x (off / bsize) ((g.C x (off / bsize)).splice (off % bsize) src)) x off src := by
  set j := off / bsize with hj
  have hblocks : ∀ {i}, i ∈ blocksOf off src.length → i = j := by
    intro i hi
    obtain ⟨z, h1, h2, rfl⟩ := mem_blocksOf.mp hi
    unfold bsize at hj hlen ⊢
    omega
  refine ⟨fun h => h, fun y i => ?_, fun {y i} => ⟨fun h => .inl h, ?_⟩, fun h => .inl h, fun _ => rfl,
    SameAttr.refl _, fun h => .inr h, fun _ => ⟨rfl, fun h => h⟩⟩
  · unfold Ghost.byte
    by_cases hyj : y = x ∧ i / bsize = j
    · have hold : g.block y (i / bsize) = g.C x j := by
        rw [hyj.1, hyj.2]
        exact Ghost.block_of_some hb
      have hnew : (g.store x j ((g.C x j).splice (off % bsize) src)).block y (i / bsize) =
          (g.C x j).splice (off % bsize) src := by
        have hown : (g.store x j ((g.C x j).splice (off % bsize) src)).own (.data x j) = some b := hb
        rw [hyj.1, hyj.2]
        exact (Ghost.block_of_some hown).trans (Ghost.store_C_self ..)
      have hi : i / bsize = off / bsize := hyj.2.trans hj
      rw [hold, hnew]
      by_cases hin : off ≤ i ∧ i < off + src.length
      · rw [if_pos ⟨hyj.1, hin⟩, Block.splice_of_inside]
        · congr 1
          unfold bsize at hi ⊢
          omega
        · unfold bsize at hi ⊢
          omega
        · unfold bsize at hi ⊢
          omega
        · exact Nat.mod_lt _ (by decide)
      · rw [if_neg fun h => hin h.2, Block.splice_of_outside]
        unfold bsize at hi ⊢
        omega
    · rw [if_neg]
      · exact congrArg (fun B : Block => B.1 (i % bsize))
          (Ghost.block_congr rfl (Ghost.store_C_of_ne _ _ hyj))
      · rintro ⟨hy, h1, h2⟩
        exact hyj ⟨hy, hblocks (mem_blocksOf.mpr ⟨i, h1, h2, rfl⟩)⟩
  · rintro (h | ⟨rfl, hi⟩)
    · exact h
    · rw [hblocks hi]
      show g.own (.data y j) ≠ none
      rw [hb]
      exact nofun

/-- A new block leaves the bytes as they are. -/
theorem Grows.wrote {b : ℕ} (hg : Grows g g₁ x (off / bsize) b) (hw : Wrote g₁ g₂ x off src)
    (hpos : src ≠ []) (hnone : g.own (.data x (off / bsize)) = none) : Wrote g g₂ x off src := by
  have hsrc : 0 < src.length := List.length_pos_of_ne_nil hpos
  refine ⟨fun h => hw.keeps (hg.keeps h), fun y i => ?_, fun {y j} => ?_, fun hy => ?_,
    fun hy => (hw.other hy).trans (hg.other hy), hg.attr.trans hw.attr, fun hs => ?_,
    fun hall => absurd hnone (hall _ (blocksOf_first _ hsrc))⟩
  · rw [hw.byte, show g₁.byte y i = g.byte y i from
      congrArg (fun B : Block => B.1 (i % bsize)) (hg.block y (i / bsize))]
  · rw [hw.data]
    by_cases hyj : y = x ∧ j = off / bsize
    · have hmem : y = x ∧ j ∈ blocksOf off src.length := ⟨hyj.1, hyj.2 ▸ blocksOf_first _ hsrc⟩
      exact ⟨fun _ => .inr hmem, fun _ => .inr hmem⟩
    · rw [hg.data hyj]
  · rcases hw.ind hy with h | h
    · refine (hg.ind h).imp_right fun ⟨h, hle⟩ => ⟨h, ?_⟩
      have h1 := Nat.mul_le_mul_right bsize hle
      have h2 := Nat.div_mul_le_self off bsize
      omega
    · exact .inr h
  · rcases hw.stale hs with h | h
    · exact .inl h
    · exact hg.stale h

end Wrote

section Write

variable {G : Geom} {ok : Stop → Prop} {t : View} {g : Ghost} {e : Txn} {ip x : ℕ}

/-- **The loop of `inode_write`.** -/
theorem wp_inodeWriteLoop {Q : ℕ → View → Prop} (hok : Lax ok e) (hx : x < G.ninodes) (k off : ℕ)
    (src : Bytes) (hw : Work G ok t g e) (hc : Caches t.k ip x (g.V x)) (htype : (g.V x).type ≠ 0)
    (hk : src.length ≤ k) (hmax : off + src.length ≤ maxfile * bsize)
    (hp : e.Pays ok (writeTags G x off src.length))
    (hspace : Spacious G ok g (writeTags G x off src.length))
    (hQ : ∀ t' g', Work G ok t' g' e → Wrote g g' x off src → t'.k = t.k.setDinode ip (g'.V x) →
      Q (off + src.length) t') :
    Wp (rules G.area ok) (inodeWriteLoop ip k off src) Q t := by
  induction k generalizing t g off src with
  | zero =>
    obtain rfl := List.length_eq_zero_iff.mp (Nat.le_zero.mp hk)
    exact hQ t g hw (wrote_nil g x off) hc.setDinode_self.symm
  | succ k ih =>
    unfold inodeWriteLoop
    split_ifs with hsrc
    · subst hsrc
      exact hQ t g hw (wrote_nil g x off) hc.setDinode_self.symm
    · set m := min src.length (bsize - off % bsize)
      have hsrc0 : 0 < src.length := List.length_pos_of_ne_nil hsrc
      have hpos : 0 < bsize - off % bsize := Nat.sub_pos_of_lt (Nat.mod_lt _ (by decide))
      have hmlen : m ≤ src.length := Nat.min_le_left ..
      have htake : (src.take m).length = m := by
        rw [List.length_take]
        omega
      have hfirst := blocksOf_first off hsrc0
      have hpb : e.Pays ok (bmapTags G x (off / bsize)) := hp.mono (bmapTags_subset hfirst)
      -- one round, once the block is there
      have hround : ∀ {t1 g₁ b}, Work G ok t1 g₁ e → Caches t1.k ip x (g₁.V x) →
          g₁.own (.data x (off / bsize)) = some b → SameAttr (g.V x) (g₁.V x) →
          (∀ {g₂}, Wrote g₁ g₂ x off (src.take m) → Wrote g g₂ x off (src.take m)) →
          t1.k = t.k.setDinode ip (g₁.V x) →
          Wp (rules G.area ok) (do
            let x ← getInode ip
            let bp ← bufcacheRead x.dev b
            let data ← bufData bp
            setBufData bp (data.splice (off % bsize) (src.take m))
            logWrite bp
            bufcacheRelease bp
            inodeWriteLoop ip k (off + m) (src.drop m)) Q t1 := by
        intro t1 g₁ b hw1 hc1 hb hattr hwrote hk1
        refine wp_getInode ?_
        rw [hc1.dev]
        have hlt := (hw1.maps.marks.inside hb).2
        refine wp_reading (hw1.readable hlt) fun bp _ hfree hmod => wp_data ?_
        have hpd : e.Pays ok {.own (.data x (off / bsize))} := hpb.mono fun p hp =>
          mem_union_left _ (mem_insert_of_mem hp)
        have htag : ∃ p ∈ ({.own (.data x (off / bsize))} : Finset Tag), g₁.sector p = some b :=
          ⟨_, mem_singleton_self _, hb⟩
        have hroom : Room G.area ok t1 {b} := hw1.roomFor (hpd.covered fun s hs => by
          rw [mem_singleton.mp hs]
          exact htag)
        refine pre_put (hw1.outside hok) hroom (mem_singleton_self b)
          (hw1.maps.apart hb).super hfree hmod fun _ => ?_
        rw [hw1.maps.data hb]
        set g₂ := g₁.store x (off / bsize) ((g₁.C x (off / bsize)).splice (off % bsize) (src.take m))
        have hw2 : Work G ok (t1.put b ((g₁.C x (off / bsize)).splice (off % bsize) (src.take m))) g₂ e :=
          ⟨(hw1.toPaid.put hpd htag _).mono fun h => h, hw1.maps.store hb _⟩
        have hstep : Wrote g g₂ x off (src.take m) := by
          refine hwrote (wrote_store hb ?_)
          rw [htake]
          exact Nat.min_le_right ..
        have hrest : (src.drop m).length = src.length - m := List.length_drop
        refine ih (off + m) (src.drop m) hw2 hc1 ?_ (by omega) (by omega) ?_ ?_ ?_
        · show (g₁.V x).type ≠ 0
          rw [hattr.type]
          exact htype
        · rw [hrest]
          exact hp.mono (writeTags_rest hmlen)
        · rw [hrest]
          refine hspace.grow (fun o ho => (hstep.own G ho).imp_right fun hmem => ?_)
            (writeTags_rest hmlen)
          rw [htake] at hmem
          exact writeTags_take hmlen hmem
        · intro t' g' hw' hwrote' hk'
          rw [hrest, show off + m + (src.length - m) = off + src.length by omega]
          refine hQ t' g' hw' ?_ ?_
          · have happ := hstep.append (src.drop m) (by rw [htake]; exact hwrote')
            rwa [List.take_append_drop] at happ
          · rw [hk']
            show t1.k.setDinode ip (g'.V x) = _
            rw [hk1, Kmem.setDinode_setDinode]
      cases hown : g.own (.data x (off / bsize)) with
      | some b =>
        refine Wp.bind (Q := fun addr t' => addr = b ∧ t' = t)
          (wp_bmap_old hw.maps hc (fun _ h => hw.readable h) hown ⟨rfl, rfl⟩) ?_
        rintro addr t' ⟨rfl, rfl⟩
        exact hround hw hc hown (SameAttr.refl _) (fun h => h) hc.setDinode_self.symm
      | none =>
        have hbn : off / bsize < maxfile := Nat.div_lt_of_lt_mul (by
          rw [Nat.mul_comm]
          omega)
        refine Prog.wp_bind.mpr (wp_bmap_new hw hok hc hx htype hbn hown hpb
          (hspace.mono (bmapTags_subset hfirst)) fun b t1 g₁ hw1 hgrows hk1 => ?_)
        refine hround hw1 ?_ hgrows.owned hgrows.attr (fun h => hgrows.wrote h ?_ hown) hk1
        · rw [hk1]
          exact hc.setDinode _
        · exact List.ne_nil_of_length_pos (by rw [htake]; omega)

end Write

/-! ### `inode_update` -/

section Update

variable {G : Geom} {ok : Stop → Prop} {t : View} {g : Ghost} {e : Txn} {ip x : ℕ}

theorem Work.clean (h : Work G ok t g e) (hx : x < G.ninodes) (hp : e.Pays ok {.sec (iblock x)}) :
    Work G ok (t.put (iblock x) ((t.blk (iblock x)).setDinode (x % ipb) (g.V x))) (g.clean x) e :=
  ⟨(h.toPaid.put hp ⟨.sec (iblock x), mem_singleton_self _, rfl⟩ _).mono fun h => h,
    h.maps.update hx⟩

theorem Work.modify (h : Work G ok t g e) {d : Dinode} (hd : d.Fits)
    (haddr : ∀ i, d.addr i = (g.V x).addr i)
    (htype : d.type = 0 → ∀ o b, g.own o = some b → o.inode ≠ x) :
    Work G ok t (g.modify x d) e := by
  have hsub : g.Extends (g.modify x d) := fun h => h
  exact ⟨h.toPaid.mono hsub, h.maps.modify hd haddr htype⟩

/-- **`inode_update`** -/
theorem wp_inodeUpdate {Q : PUnit → View → Prop} (hok : Lax ok e) (hw : Work G ok t g e)
    (hc : Caches t.k ip x (g.V x)) (hx : x < G.ninodes) (hp : e.Pays ok {.sec (iblock x)})
    (hQ : e.busy = true → ∀ t', Work G ok t' (g.clean x) e → t'.k = t.k → Q ⟨⟩ t') :
    Wp (rules G.area ok) (inodeUpdate ip) Q t := by
  have hlt : iblock x < G.dataEnd := (Geom.iblock_lt hx).trans Geom.bitmap_lt
  have hne : iblock x ≠ 1 := Nat.ne_of_gt (Geom.two_le_iblock x)
  have hroom : Room G.area ok t {iblock x} := hw.roomFor (hp.covered fun s hs =>
    ⟨.sec (iblock x), mem_singleton_self _, by rw [mem_singleton.mp hs]; rfl⟩)
  refine wp_getInode ?_
  rw [hc.dev, hc.inum]
  refine wp_reading (hw.readable hlt) fun bp _ hfree hm => wp_data (wp_getInode ?_)
  show Wp _ (setBufData bp ((t.blk (iblock x)).setDinode ((t.k.inode ip).inum % ipb)
    (t.k.inode ip).d) >>= _) Q _
  rw [hc.inum, hc.copy]
  exact pre_put (hw.outside hok) hroom (mem_singleton_self _) hne hfree hm fun hbusy =>
    hQ (hw.busy ▸ hbusy) _ (hw.clean hx hp) rfl

end Update

end Fs

end Mcertikos
