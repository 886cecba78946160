/-
The formatter (`fs/mkfs.c`).

`mkfs` writes a file-system image from a list of input files.

* `Mkfs`, `mkfs` — the image file with the global variables, and the program;
* `Laid` — the image so far is a file system, if the blocks below `freeblock` count as used;
* `iappend_laid`, `ialloc_laid` — what the functions add to the files;
* `mkfs_laid` — what a whole run leaves.

Design notes: the bitmap is written last.  On the way, the image is looked at as if its
bitmap block had the blocks below `freeblock`, so that the lemmas on allocation are the ones
that the kernel's allocator uses.
-/
import Mcertikos.Fs.Eval
import Mcertikos.Fs.Nodes

namespace Mcertikos

namespace Fs

open List Function Splice

/-! ### The program -/

/-- An input file: its name on the command line, and what the calls of `read` return. -/
structure Input where
  name : Bytes
  reads : List Bytes

/-- The contents of an input file. -/
def Input.data (f : Input) : Bytes := f.reads.flatten

/-- The image file with its number of sectors, and the global variables of `mkfs.c`. -/
structure Mkfs where
  sect : ℕ → Block
  nsect : ℕ
  freeblock : ℕ
  usedblocks : ℕ
  freeinode : ℕ

/-- A run stops with `none` at `exit(1)` and at an assertion that fails. -/
abbrev MkfsM := StateT Mkfs Option

namespace Mkfs

def nblocks : ℕ := 985

def nlog : ℕ := logsize

def ninodes : ℕ := 200

def size : ℕ := 1024

/-- The blocks before the data area. -/
def metablocks : ℕ := ninodes / ipb + 3 + (size / (512 * 8) + 1)

def wsect (sec : ℕ) (buf : Block) : MkfsM PUnit :=
  modify fun m => { m with sect := update m.sect sec buf, nsect := max m.nsect (sec + 1) }

/-- `rsect`; the file ends after `nsect` sectors. -/
def rsect (sec : ℕ) : MkfsM Block := do
  let m ← get
  if sec < m.nsect then pure (m.sect sec) else failure

def i2b (inum : ℕ) : ℕ := inum / ipb + 2

def winode (inum : ℕ) (d : Dinode) : MkfsM PUnit := do
  let buf ← rsect (i2b inum)
  wsect (i2b inum) (buf.setDinode (inum % ipb) d)

def rinode (inum : ℕ) : MkfsM Dinode := do
  let buf ← rsect (i2b inum)
  pure (buf.dinode (inum % ipb))

def ialloc (type : ℕ) : MkfsM ℕ := do
  let m ← get
  set { m with freeinode := m.freeinode + 1 }
  winode m.freeinode { Dinode.zero with type := type, nlink := 1 }
  pure m.freeinode

/-- `freeblock++` and `usedblocks++`. -/
def newBlock : MkfsM ℕ := do
  let m ← get
  set { m with freeblock := m.freeblock + 1, usedblocks := m.usedblocks + 1 }
  pure m.freeblock

/-- Address `i` of an inode in `iappend`. -/
def appendAddr (din : Dinode) (i : ℕ) : MkfsM Dinode :=
  if din.addr i = 0 then do
    let b ← newBlock
    pure (din.setAddr i b)
  else pure din

/-- Entry `j` of the indirect block `ib` in `iappend`. -/
def appendEntry (ib j : ℕ) : MkfsM ℕ := do
  let indirect ← rsect ib
  if indirect.entry j = 0 then do
    let b ← newBlock
    wsect ib (indirect.setEntry j b)
    pure b
  else pure (indirect.entry j)

/-- The block number `fbn` of a file in `iappend`. -/
def appendBlock (din : Dinode) (fbn : ℕ) : MkfsM (Dinode × ℕ) :=
  if fbn < ndirect then do
    let din ← appendAddr din fbn
    pure (din, din.addr fbn)
  else do
    let din ← appendAddr din ndirect
    let x ← appendEntry (din.addr ndirect) (fbn - ndirect)
    pure (din, x)

/-- The loop of `iappend`. -/
def iappendLoop : ℕ → Bytes → ℕ → Dinode → MkfsM (Dinode × ℕ)
  | 0, _, off, din => pure (din, off)
  | k + 1, p, off, din =>
    if p = [] then pure (din, off)
    else do
      guard (off / bsize < maxfile)
      let (din, x) ← appendBlock din (off / bsize)
      let n1 := min p.length ((off / bsize + 1) * bsize - off)
      let buf ← rsect x
      wsect x (buf.splice (off - off / bsize * bsize) (p.take n1))
      iappendLoop k (p.drop n1) (off + n1) din

def iappend (inum : ℕ) (p : Bytes) : MkfsM PUnit := do
  let din ← rinode inum
  let (din, off) ← iappendLoop p.length p din.size din
  winode inum { din with size := off }

/-- The bitmap that `balloc` writes. -/
def usedBits (used : ℕ) : Block := (range used).foldl Block.setBit Block.zeroed

def balloc (used : ℕ) : MkfsM PUnit := do
  guard (used < 512 * 8)
  wsect (ninodes / ipb + 3) (usedBits used)

/-- A directory entry of the root. -/
def direntOf (name : Bytes) (inum : ℕ) : Bytes := Dirent.bytes ⟨inum, strncpy dirsiz name⟩

/-- The name of an input file without a leading `_`. -/
def stripName (name : Bytes) : Bytes := if name.head? = some 95 then name.tail else name

/-- One input file. -/
def addFile (root : ℕ) (f : Input) : MkfsM PUnit := do
  guard (slash ∉ f.name)
  let inum ← ialloc tFile
  iappend root (direntOf (stripName f.name) inum)
  f.reads.forM (iappend inum)

/-- `fix size of root inode dir`. -/
def fixRoot (root : ℕ) : MkfsM PUnit := do
  let din ← rinode root
  winode root { din with size := (din.size / bsize + 1) * bsize }

/-- Writing zeros to all sectors, and the superblock. -/
def clear : MkfsM PUnit := do
  guard (nblocks + metablocks + nlog = size)
  (range size).forM fun i => wsect i Block.zeroed
  wsect 1 ((((Block.zeroed.write32 0 size).write32 4 nblocks).write32 8 ninodes).write32 12 nlog)

/-- The root directory with its first two entries. -/
def makeRoot : MkfsM ℕ := do
  let root ← ialloc tDir
  guard (root = rootino)
  iappend root (direntOf dot root)
  iappend root (direntOf dotdot root)
  pure root

/-- The end of `main`. -/
def finish (root : ℕ) : MkfsM PUnit := do
  fixRoot root
  let m ← get
  balloc m.usedblocks

def main (files : List Input) : MkfsM PUnit := do
  clear
  let root ← makeRoot
  files.forM (addFile root)
  finish root

/-- The start, with some sectors of zeros written. -/
def zeros (nsect : ℕ) : Mkfs := ⟨fun _ => Block.zeroed, nsect, metablocks, metablocks, 1⟩

end Mkfs

/-- `mkfs`: the image, if it exits with status 0. -/
def mkfs (files : List Input) : Option Mkfs :=
  ((Mkfs.main files).run (Mkfs.zeros 0)).map Prod.snd

/-! ### Running -/

namespace Mkfs

section Run

variable {α β : Type} {m m' : Mkfs} {a : α} {p : MkfsM α} {f : α → MkfsM β}

theorem run_bind (h : p m = some (a, m')) : (p >>= f) m = f a m' := by
  show (p m).bind _ = _
  rw [h]
  rfl

theorem run_guard {c : Prop} [Decidable c] (hc : c) {q : MkfsM β} : (do guard c; q : MkfsM β) m = q m := by
  rw [guard, if_pos hc]
  rfl

variable {sec : ℕ}

theorem run_rsect (h : sec < m.nsect) : rsect sec m = some (m.sect sec, m) := by
  show (if sec < m.nsect then pure (m.sect sec) else failure : MkfsM Block) m = _
  rw [if_pos h]
  rfl

/-- The image with another sector, of those it has. -/
def write (m : Mkfs) (sec : ℕ) (buf : Block) : Mkfs := { m with sect := update m.sect sec buf }

theorem write_of_ne (m : Mkfs) {b : ℕ} (buf : Block) (h : b ≠ sec) :
    (m.write sec buf).sect b = m.sect b := update_of_ne h ..

theorem run_wsect {buf : Block} (h : sec < m.nsect) :
    wsect sec buf m = some (⟨⟩, m.write sec buf) := by
  have hmax : max m.nsect (sec + 1) = m.nsect := by omega
  show some (PUnit.unit, { m with sect := update m.sect sec buf, nsect := max m.nsect (sec + 1) }) = _
  rw [hmax]
  rfl

theorem i2b_eq (inum : ℕ) : i2b inum = iblock inum := rfl

theorem run_winode {inum : ℕ} {d : Dinode} (h : iblock inum < m.nsect) :
    winode inum d m = some (⟨⟩, m.write (iblock inum) ((m.sect (iblock inum)).setDinode (inum % ipb) d)) := by
  unfold winode
  rw [i2b_eq, run_bind (run_rsect h), run_wsect h]

theorem run_rinode {inum : ℕ} (h : iblock inum < m.nsect) :
    rinode inum m = some ((m.sect (iblock inum)).dinode (inum % ipb), m) := by
  unfold rinode
  rw [i2b_eq, run_bind (run_rsect h)]
  rfl

end Run

/-! ### The bitmap -/

theorem usedBits_succ (n : ℕ) : usedBits (n + 1) = (usedBits n).setBit n := by
  unfold usedBits
  rw [range_succ, foldl_append]
  rfl

theorem bit_usedBits {n : ℕ} (hn : n ≤ bpb) (b : ℕ) : (usedBits n).bit b = decide (b < n) := by
  induction n with
  | zero =>
    show Block.zeroed.bit b = decide (b < 0)
    unfold Block.bit
    rw [Block.zeroed_apply]
    simp
  | succ n ih =>
    rw [usedBits_succ, Block.bit_setBit hn, ih (Nat.le_of_succ_le hn), Bool.eq_iff_iff]
    simp only [Bool.or_eq_true, decide_eq_true_eq]
    omega

/-- The sizes of an image. -/
def geom : Geom where
  size := size
  ninodes := ninodes
  nlog := nlog
  one_lt_ninodes := by decide
  nlog_pos := by decide
  size_le := by decide
  fits := by decide

/-- The image as it would be with the blocks below `freeblock` in its bitmap. -/
def shadow (m : Mkfs) : ℕ → Block := update m.sect geom.bitmap (usedBits m.freeblock)

/-- The image is a file system with the inodes `g`. -/
structure Laid (m : Mkfs) (g : Ghost) : Prop where
  maps : Maps geom m.shadow g
  super : m.sect 1 = mkfsSuper
  blank : ∀ b, m.freeblock ≤ b → b < size → m.sect b = Block.zeroed
  nsect : m.nsect = size
  used : m.usedblocks = m.freeblock
  start_le : geom.dataStart ≤ m.freeblock
  le_end : m.freeblock ≤ geom.dataEnd

section Laid

variable {m : Mkfs} {g : Ghost} {x i j b : ℕ}

theorem lt_size (h : b < geom.dataEnd) : b < size := by
  have : geom.dataEnd = 1014 := rfl
  unfold size
  omega

theorem shadow_of_ne (m : Mkfs) (h : b ≠ geom.bitmap) : m.shadow b = m.sect b := update_of_ne h ..

theorem Laid.sect_of_own (h : Laid m g) {o : Owner} (ho : g.own o = some b) :
    m.shadow b = m.sect b ∧ b < m.nsect := by
  refine ⟨m.shadow_of_ne (h.maps.apart ho).bitmap, ?_⟩
  rw [h.nsect]
  exact lt_size (h.maps.marks.inside ho).2

theorem iblock_lt_nsect (h : Laid m g) (hx : x < ninodes) : iblock x < m.nsect := by
  rw [h.nsect]
  exact lt_size ((Geom.iblock_lt hx).trans Geom.bitmap_lt)

/-- The state after `newBlock`. -/
def take (m : Mkfs) : Mkfs := { m with freeblock := m.freeblock + 1, usedblocks := m.usedblocks + 1 }

theorem run_newBlock (m : Mkfs) : newBlock m = some (m.freeblock, m.take) := rfl

theorem Laid.fresh (h : Laid m g) (hlt : m.freeblock < geom.dataEnd) :
    Fresh geom m.shadow m.freeblock := by
  refine ⟨h.start_le, hlt, ?_⟩
  unfold shadow
  rw [update_self, bit_usedBits (hlt.le.trans geom.dataEnd_le)]
  simp

/-- Taking the next block is what the allocator of the kernel would do. -/
theorem Laid.shadow_take (h : Laid m g) (hlt : m.freeblock < geom.dataEnd) :
    m.take.shadow = allocBlk geom m.shadow m.freeblock := by
  have hne := (h.fresh hlt).apart.bitmap
  unfold allocBlk shadow
  rw [update_self, update_idem, ← usedBits_succ]
  refine (update_eq_self_iff.mpr ?_).symm
  rw [update_of_ne hne]
  exact (h.blank _ (le_refl _) (lt_size hlt)).symm

theorem Laid.lt_freeblock (h : Laid m g) {o : Owner} (ho : g.own o = some b) : b < m.freeblock := by
  have hbit := h.maps.marks.bit_of_own ho
  unfold shadow at hbit
  rwa [update_self, bit_usedBits (h.le_end.trans geom.dataEnd_le), decide_eq_true_eq] at hbit

/-- Writing a block other than the bitmap. -/
theorem shadow_write (m : Mkfs) (buf : Block) (h : b ≠ geom.bitmap) :
    (m.write b buf).shadow = update m.shadow b buf := by
  unfold shadow write
  dsimp only
  rw [update_comm h]

theorem Laid.take_addr (h : Laid m g) (hlt : m.freeblock < geom.dataEnd) (hx : x < ninodes)
    (htype : (g.V x).type ≠ 0) (hi : i ≤ ndirect) (hnone : g.own (.slot x i) = none) :
    Laid m.take (g.takeAddr x i m.freeblock) where
  maps := by
    rw [h.shadow_take hlt]
    exact h.maps.takeAddr (h.fresh hlt) hx htype hi hnone
  super := h.super
  blank := fun b hb => h.blank b (Nat.le_of_succ_le hb)
  nsect := h.nsect
  used := congrArg (· + 1) h.used
  start_le := h.start_le.trans (Nat.le_succ _)
  le_end := hlt

variable {ib off : ℕ} {files : List Input}

theorem Laid.take_entry (h : Laid m g) (hlt : m.freeblock < geom.dataEnd)
    (hind : g.own (.ind x) = some ib) (hj : j < nindirect)
    (hnone : g.own (.data x (ndirect + j)) = none) :
    Laid (m.take.write ib ((m.sect ib).setEntry j m.freeblock)) (g.takeEntry x j m.freeblock) where
  maps := by
    rw [shadow_write _ _ (h.maps.apart hind).bitmap, h.shadow_take hlt, ← (h.sect_of_own hind).1]
    exact h.maps.takeEntry (h.fresh hlt) hind hj hnone
  super := (write_of_ne _ _ (h.maps.apart hind).super.symm).trans h.super
  blank := fun b hb hsize => by
    have hne : b ≠ ib := by
      have hlt := h.lt_freeblock hind
      have : m.freeblock + 1 ≤ b := hb
      omega
    exact (write_of_ne _ _ hne).trans (h.blank b (Nat.le_of_succ_le hb) hsize)
  nsect := h.nsect
  used := congrArg (· + 1) h.used
  start_le := h.start_le.trans (Nat.le_succ _)
  le_end := hlt

theorem Laid.store (h : Laid m g) (hb : g.own (.data x j) = some b) (data : Block) :
    Laid (m.write b data) (g.store x j data) where
  maps := by
    rw [shadow_write _ _ (h.maps.apart hb).bitmap]
    exact h.maps.store hb data
  super := (write_of_ne _ _ (h.maps.apart hb).super.symm).trans h.super
  blank := fun c hc hsize => by
    have hne : c ≠ b := by
      have hlt := h.lt_freeblock hb
      have : m.freeblock ≤ c := hc
      omega
    exact (write_of_ne _ _ hne).trans (h.blank c hc hsize)
  nsect := h.nsect
  used := h.used
  start_le := h.start_le
  le_end := h.le_end

/-- The file `x` has the blocks of its first `off` bytes. -/
structure Filled (g : Ghost) (x off : ℕ) : Prop where
  data : ∀ j, g.own (.data x j) ≠ none ↔ bsize * j < off
  ind : g.own (.ind x) ≠ none → ndirect * bsize < off

theorem Laid.addr (h : Laid m g) (hi : i ≤ ndirect) (hown : g.own (.slot x i) = some b) :
    (g.V x).addr i = b := by
  rw [h.maps.addr x i hi, hown]
  rfl

theorem run_appendAddr_old (h : Laid m g) (hi : i ≤ ndirect) (hown : g.own (.slot x i) = some b) :
    appendAddr (g.V x) i m = some (g.V x, m) := by
  unfold appendAddr
  rw [h.addr hi hown, if_neg (h.maps.pos_of_own hown)]
  rfl

theorem run_appendAddr_new (h : Laid m g) (hi : i ≤ ndirect) (hnone : g.own (.slot x i) = none) :
    appendAddr (g.V x) i m = some ((g.takeAddr x i m.freeblock).V x, m.take) := by
  have haddr : (g.V x).addr i = 0 := by
    rw [h.maps.addr x i hi, hnone]
    rfl
  unfold appendAddr
  rw [haddr, if_pos rfl, run_bind (run_newBlock m), g.takeAddr_V_self]
  rfl

theorem run_appendEntry_old (h : Laid m g) (hind : g.own (.ind x) = some ib)
    (hj : j < nindirect) (hown : g.own (.data x (ndirect + j)) = some b) :
    appendEntry ib j m = some (b, m) := by
  have hentry : (m.sect ib).entry j = b := by
    rw [← (h.sect_of_own hind).1, h.maps.entry hind j hj, hown]
    rfl
  unfold appendEntry
  rw [run_bind (run_rsect (h.sect_of_own hind).2), hentry, if_neg (h.maps.pos_of_own hown)]
  rfl

theorem run_appendEntry_new (h : Laid m g) (hind : g.own (.ind x) = some ib)
    (hj : j < nindirect) (hnone : g.own (.data x (ndirect + j)) = none) :
    appendEntry ib j m =
      some (m.freeblock, m.take.write ib ((m.sect ib).setEntry j m.freeblock)) := by
  have hentry : (m.sect ib).entry j = 0 := by
    rw [← (h.sect_of_own hind).1, h.maps.entry hind j hj, hnone]
    rfl
  have hlt : ib < m.take.nsect := (h.sect_of_own hind).2
  unfold appendEntry
  rw [run_bind (run_rsect (h.sect_of_own hind).2), hentry, if_pos rfl, run_bind (run_newBlock m),
    run_bind (run_wsect hlt)]
  rfl

/-- What `appendBlock` does: block `j` of the file `x` is the block `b`. -/
structure Appends (m m' : Mkfs) (g g' : Ghost) (x j b : ℕ) : Prop where
  run : appendBlock (g.V x) j m = some ((g'.V x, b), m')
  laid : Laid m' g'
  own : g'.own (.data x j) = some b
  freeinode : m'.freeinode = m.freeinode

theorem appends_old (h : Laid m g) (hown : g.own (.data x j) = some b) : Appends m m g g x j b := by
  refine ⟨?_, h, hown, rfl⟩
  unfold appendBlock
  by_cases hj : j < ndirect
  · have hslot : g.own (.slot x j) = some b := by rwa [Owner.slot_of_lt hj]
    rw [if_pos hj, run_bind (run_appendAddr_old h hj.le hslot), h.addr hj.le hslot]
    rfl
  · obtain ⟨i, rfl⟩ : ∃ i, j = ndirect + i := ⟨j - ndirect, by omega⟩
    have hi : i < nindirect := by
      by_contra hi
      rw [h.maps.short x _ (by unfold maxfile; omega)] at hown
      cases hown
    cases hind : g.own (.ind x) with
    | none =>
      rw [h.maps.bare hind i] at hown
      cases hown
    | some ib =>
      have hslot : g.own (.slot x ndirect) = some ib := by rwa [Owner.slot_ndirect]
      rw [if_neg hj, run_bind (run_appendAddr_old h (le_refl _) hslot), h.addr (le_refl _) hslot,
        Nat.add_sub_cancel_left, run_bind (run_appendEntry_old h hind hi hown)]
      rfl

theorem appends_direct (h : Laid m g) (hlt : m.freeblock < geom.dataEnd) (hx : x < ninodes)
    (htype : (g.V x).type ≠ 0) (hj : j < ndirect) (hnone : g.own (.data x j) = none) :
    Appends m m.take g (g.takeAddr x j m.freeblock) x j m.freeblock := by
  have hslot : g.own (.slot x j) = none := by rwa [Owner.slot_of_lt hj]
  have hself : (g.takeAddr x j m.freeblock).own (.data x j) = some m.freeblock := by
    rw [← Owner.slot_of_lt hj]
    exact g.takeAddr_own_self
  have hlaid := h.take_addr hlt hx htype hj.le hslot
  refine ⟨?_, hlaid, hself, rfl⟩
  unfold appendBlock
  rw [if_pos hj, run_bind (run_appendAddr_new h hj.le hslot),
    hlaid.addr hj.le (by rwa [Owner.slot_of_lt hj])]
  rfl

theorem appends_entry (h : Laid m g) (hlt : m.freeblock < geom.dataEnd)
    (hind : g.own (.ind x) = some ib) (hj : j < nindirect)
    (hnone : g.own (.data x (ndirect + j)) = none) :
    Appends m (m.take.write ib ((m.sect ib).setEntry j m.freeblock)) g (g.takeEntry x j m.freeblock) x
      (ndirect + j) m.freeblock := by
  have hslot : g.own (.slot x ndirect) = some ib := by rwa [Owner.slot_ndirect]
  refine ⟨?_, h.take_entry hlt hind hj hnone, g.takeEntry_own_self, rfl⟩
  unfold appendBlock
  rw [if_neg (by omega), run_bind (run_appendAddr_old h (le_refl _) hslot), h.addr (le_refl _) hslot,
    Nat.add_sub_cancel_left, run_bind (run_appendEntry_new h hind hj hnone)]
  rfl

theorem appends_ind (h : Laid m g) (hlt : m.freeblock + 1 < geom.dataEnd) (hx : x < ninodes)
    (htype : (g.V x).type ≠ 0) (hind : g.own (.ind x) = none) (hj : j < nindirect) :
    ∃ m', Appends m m' g ((g.takeAddr x ndirect m.freeblock).takeEntry x j (m.freeblock + 1)) x
      (ndirect + j) (m.freeblock + 1) ∧ m'.freeblock = m.freeblock + 2 := by
  have hslot : g.own (.slot x ndirect) = none := by rwa [Owner.slot_ndirect]
  set g1 := g.takeAddr x ndirect m.freeblock
  have hslot1 : g1.own (.slot x ndirect) = some m.freeblock := g.takeAddr_own_self
  have hind1 : g1.own (.ind x) = some m.freeblock := by rwa [Owner.slot_ndirect] at hslot1
  have hlaid := h.take_addr (Nat.lt_of_succ_lt hlt) hx htype (le_refl _) hslot
  have hnone1 : g1.own (.data x (ndirect + j)) = none :=
    (block_takeInd h.maps.toPoints hind x (ndirect + j)).1.trans (h.maps.bare hind j)
  refine ⟨_, ⟨?_, hlaid.take_entry hlt hind1 hj hnone1, g1.takeEntry_own_self, rfl⟩, rfl⟩
  unfold appendBlock
  rw [if_neg (by omega), run_bind (run_appendAddr_new h (le_refl _) hslot),
    hlaid.addr (le_refl _) hslot1, Nat.add_sub_cancel_left,
    run_bind (run_appendEntry_new hlaid hind1 hj hnone1)]
  rfl

/-- Bytes in a block that is there cost nothing. -/
theorem blocksFor_of_mod (h : off % bsize ≠ 0) : blocksFor (off + 1) = blocksFor off := by
  unfold blocksFor ndirect bsize at *
  split_ifs <;> omega

theorem blocksFor_succ (h : off % bsize = 0) :
    blocksFor (off + 1) = blocksFor off + if off = ndirect * bsize then 2 else 1 := by
  unfold blocksFor ndirect bsize at *
  split_ifs <;> omega

theorem blocksFor_within {n : ℕ} (h0 : 0 < n) (hn : n ≤ bsize - off % bsize) :
    blocksFor (off + n) = blocksFor (off + 1) := by
  unfold blocksFor ndirect bsize at *
  split_ifs <;> omega

theorem Filled.wrote {g' : Ghost} {src : Bytes} (h : Filled g x off) (hw : Wrote g g' x off src) :
    Filled g' x (off + src.length) := by
  refine ⟨fun j => ?_, fun hind => ?_⟩
  · rw [hw.data, h.data j, mem_blocksOf]
    constructor
    · rintro (hj | ⟨-, i, h1, h2, rfl⟩)
      · omega
      · have := Nat.mul_div_le i bsize
        omega
    · intro hj
      by_cases hlt : bsize * j < off
      · exact .inl hlt
      · exact .inr ⟨rfl, bsize * j, by omega, hj, Nat.mul_div_cancel_left j (by decide)⟩
  · rcases hw.ind hind with hi | hi
    · have := h.ind hi
      omega
    · exact hi.2

/-- The block for the byte at `off`. -/
theorem Laid.append (h : Laid m g) (hx : x < ninodes) (htype : (g.V x).type ≠ 0)
    (hfull : Filled g x off) (hmax : off / bsize < maxfile)
    (hroom : m.freeblock + blocksFor (off + 1) ≤ geom.dataEnd + blocksFor off) :
    ∃ m' g' b, Appends m m' g g' x (off / bsize) b ∧ SameAttr (g.V x) (g'.V x) ∧
      (∀ {src g2}, src ≠ [] → Wrote g' g2 x off src → Wrote g g2 x off src) ∧
      m'.freeblock + blocksFor off = m.freeblock + blocksFor (off + 1) := by
  have hdiv := Nat.div_add_mod off bsize
  cases hown : g.own (.data x (off / bsize)) with
  | some b =>
    have hmod : off % bsize ≠ 0 := by
      have := (hfull.data (off / bsize)).mp (by rw [hown]; exact nofun)
      omega
    exact ⟨m, g, b, appends_old h hown, SameAttr.refl _, fun _ hw => hw, by rw [blocksFor_of_mod hmod]⟩
  | none =>
    have hmod : off % bsize = 0 := by
      have := mt (hfull.data (off / bsize)).mpr (not_not.mpr hown)
      omega
    have hcost := blocksFor_succ hmod
    rw [hmod, Nat.add_zero] at hdiv
    by_cases hj : off / bsize < ndirect
    · have hne : off ≠ ndirect * bsize := fun he => by
        rw [he, Nat.mul_div_cancel _ (by decide)] at hj
        exact absurd hj (lt_irrefl _)
      rw [if_neg hne] at hcost
      refine ⟨_, _, _, appends_direct h (by omega) hx htype hj hown, ?_, fun hs hw =>
        (grows_takeAddr hj (by rwa [Owner.slot_of_lt hj])).wrote hw hs hown, ?_⟩
      · exact (grows_takeAddr hj (by rwa [Owner.slot_of_lt hj])).attr
      · rw [hcost]
        show m.freeblock + 1 + _ = _
        omega
    · obtain ⟨j, hje⟩ : ∃ j, off / bsize = ndirect + j := ⟨off / bsize - ndirect, by omega⟩
      have hj' : j < nindirect := by
        unfold maxfile at hmax
        omega
      rw [hje] at hown ⊢
      cases hind : g.own (.ind x) with
      | some ib =>
        have hne : off ≠ ndirect * bsize := (hfull.ind (by rw [hind]; exact nofun)).ne'
        rw [if_neg hne] at hcost
        have hgrows := grows_takeEntry (b := m.freeblock) hown
        refine ⟨_, _, _, appends_entry h (by omega) hind hj' hown, hgrows.attr, fun hs hw => ?_, ?_⟩
        · rw [← hje] at hgrows hown
          exact hgrows.wrote hw hs hown
        · rw [hcost]
          show m.freeblock + 1 + _ = _
          omega
      | none =>
        have he : off = ndirect * bsize := by
          have hfirst := mt (hfull.data ndirect).mpr (not_not.mpr (h.maps.bare hind 0))
          have hle := Nat.mul_le_mul_left bsize (show ndirect ≤ off / bsize by omega)
          rw [hdiv] at hle
          rw [Nat.mul_comm ndirect]
          omega
        rw [if_pos he] at hcost
        have hgrows := grows_takeInd (b := m.freeblock + 1) m.freeblock h.maps.toPoints hind hown
        obtain ⟨m', happ, hfree⟩ := appends_ind h (by omega) hx htype hind hj'
        refine ⟨m', _, _, happ, hgrows.attr, fun hs hw => ?_, by omega⟩
        rw [← hje] at hgrows hown
        exact hgrows.wrote hw hs hown

/-- **The loop of `iappend`** -/
theorem run_iappendLoop (hx : x < ninodes) (k : ℕ) (p : Bytes) (off : ℕ) {m : Mkfs} {g : Ghost}
    (h : Laid m g) (htype : (g.V x).type ≠ 0) (hfull : Filled g x off) (hk : p.length ≤ k)
    (hmax : off + p.length ≤ maxfile * bsize)
    (hroom : m.freeblock + blocksFor (off + p.length) ≤ geom.dataEnd + blocksFor off) :
    ∃ m' g', iappendLoop k p off (g.V x) m = some ((g'.V x, off + p.length), m') ∧ Laid m' g' ∧
      Wrote g g' x off p ∧ m'.freeinode = m.freeinode ∧
      m'.freeblock + blocksFor off = m.freeblock + blocksFor (off + p.length) := by
  induction k generalizing p off m g with
  | zero =>
    obtain rfl := length_eq_zero_iff.mp (Nat.le_zero.mp hk)
    exact ⟨m, g, rfl, h, wrote_nil g x off, rfl, rfl⟩
  | succ k ih =>
    by_cases hp : p = []
    · subst hp
      exact ⟨m, g, rfl, h, wrote_nil g x off, rfl, rfl⟩
    · have hpos : 0 < p.length := length_pos_of_ne_nil hp
      have hmod : off % bsize < bsize := Nat.mod_lt _ (by decide)
      have hdiv := Nat.div_add_mod' off bsize
      have hmax' : off / bsize < maxfile := Nat.div_lt_of_lt_mul (by rw [Nat.mul_comm]; omega)
      set n1 := min p.length ((off / bsize + 1) * bsize - off)
      have hroom1 : (off / bsize + 1) * bsize - off = bsize - off % bsize := by
        rw [Nat.succ_mul]
        omega
      have htake : (p.take n1).length = n1 := by
        rw [length_take]
        omega
      have hcost : blocksFor (off + n1) = blocksFor (off + 1) := blocksFor_within (by omega) (by omega)
      have hmono := blocksFor_mono (show off + 1 ≤ off + p.length by omega)
      obtain ⟨m1, g1, b, happ, hattr, hwrote, hfree⟩ := h.append hx htype hfull hmax' (by omega)
      set data := (m1.sect b).splice (off % bsize) (p.take n1) with hdata
      have hstore : Wrote g1 (g1.store x (off / bsize) data) x off (p.take n1) := by
        have hC : m1.sect b = g1.C x (off / bsize) := by
          rw [← (happ.laid.sect_of_own happ.own).1]
          exact happ.laid.maps.data happ.own
        rw [hdata, hC]
        exact wrote_store happ.own (by omega)
      have hstep : Wrote g (g1.store x (off / bsize) data) x off (p.take n1) :=
        hwrote (fun he => by rw [he, length_nil] at htake; omega) hstore
      have hrest : (p.drop n1).length = p.length - n1 := length_drop
      obtain ⟨m', g', hrun, hlaid, hw, hino, hfree'⟩ := ih (p.drop n1) (off + n1)
        (happ.laid.store happ.own data) (by show (g1.V x).type ≠ 0; rw [hattr.type]; exact htype)
        (by have := hfull.wrote hstep; rwa [htake] at this) (by omega) (by omega) (by
          rw [hrest, show off + n1 + (p.length - n1) = off + p.length by omega]
          show m1.freeblock + _ ≤ _
          omega)
      rw [hrest, show off + n1 + (p.length - n1) = off + p.length by omega] at hrun hfree'
      change m'.freeblock + _ = m1.freeblock + _ at hfree'
      refine ⟨m', g', ?_, hlaid, ?_, hino.trans happ.freeinode, by omega⟩
      · unfold iappendLoop
        have hsec := (happ.laid.sect_of_own happ.own).2
        rw [if_neg hp, run_guard hmax', run_bind happ.run]
        dsimp only
        rw [run_bind (run_rsect hsec), show off - off / bsize * bsize = off % bsize by omega,
          run_bind (run_wsect hsec)]
        exact hrun
      · have happend := hstep.append (p.drop n1) (by rw [htake]; exact hw)
        rwa [take_append_drop] at happend

/-! ### Files -/

theorem Laid.modify (h : Laid m g) {d : Dinode} (hd : d.Fits) (haddr : ∀ i, d.addr i = (g.V x).addr i)
    (htype : d.type ≠ 0) : Laid m (g.modify x d) :=
  ⟨h.maps.modify hd haddr fun h0 => absurd h0 htype, h.super, h.blank, h.nsect, h.used, h.start_le, h.le_end⟩

/-- `winode`. -/
theorem Laid.update (h : Laid m g) (hx : x < ninodes) :
    Laid (m.write (iblock x) ((m.sect (iblock x)).setDinode (x % ipb) (g.V x))) (g.clean x) where
  maps := by
    have hne : iblock x ≠ geom.bitmap := (Geom.iblock_lt hx).ne
    rw [shadow_write _ _ hne, ← m.shadow_of_ne hne]
    exact h.maps.update hx
  super := (write_of_ne _ _ (Nat.ne_of_lt (Geom.two_le_iblock x))).trans h.super
  blank := fun b hb hsize => by
    have hlt : iblock x < b := (Geom.iblock_lt hx).trans (h.start_le.trans hb)
    exact (write_of_ne _ _ hlt.ne').trans (h.blank b hb hsize)
  nsect := h.nsect
  used := h.used
  start_le := h.start_le
  le_end := h.le_end

/-- The image has the files `N`, all of them on disk, with zeros behind their ends. -/
structure Stores (m : Mkfs) (g : Ghost) (N : ℕ → Node) : Prop extends Laid m g where
  node : ∀ x, g.Is x (N x)
  stale : ∀ x, ¬ g.stale x
  tail : ∀ x i, (N x).data.length ≤ i → g.byte x i = 0

variable {N : ℕ → Node}

theorem Stores.dinode (h : Stores m g N) (hx : x < ninodes) :
    (m.sect (iblock x)).dinode (x % ipb) = g.V x := by
  rw [← m.shadow_of_ne (Geom.iblock_lt hx).ne]
  exact h.maps.inode x hx (h.stale x)

theorem Stores.filled (h : Stores m g N) : Filled g x (N x).data.length := by
  refine ⟨fun j => ?_, fun hi => ?_⟩
  · rw [(h.node x).full, (h.node x).size]
  · rw [← (h.node x).size]
    exact (h.node x).ind hi

theorem splice_length (l p : Bytes) : splice l l.length p = l ++ p := by
  unfold splice
  rw [take_length, drop_eq_nil_of_le (Nat.le_add_right ..), append_nil]

/-- **`iappend`** -/
theorem Stores.iappend (h : Stores m g N) (hx : x < ninodes) (htype : (N x).type ≠ 0) {p : Bytes}
    (hmax : (N x).data.length + p.length ≤ maxfile * bsize)
    (hroom : m.freeblock + blocksFor ((N x).data.length + p.length) ≤
      geom.dataEnd + blocksFor (N x).data.length) :
    ∃ m' g', iappend x p m = some (⟨⟩, m') ∧
      Stores m' g' (update N x { N x with data := (N x).data ++ p }) ∧
      m'.freeinode = m.freeinode ∧ m'.freeblock + blocksFor (N x).data.length =
        m.freeblock + blocksFor ((N x).data.length + p.length) := by
  set off := (N x).data.length with hoff
  have hnode := h.node x
  have htypeV : (g.V x).type ≠ 0 := by rwa [hnode.type]
  obtain ⟨m1, g1, hrun, hlaid, hw, hino, hfree⟩ := run_iappendLoop hx p.length p off h.toLaid htypeV
    h.filled (le_refl _) hmax hroom
  set d : Dinode := { g1.V x with size := off + p.length } with hd
  have hfits1 := hlaid.maps.fits x
  have hfits : d.Fits := ⟨hfits1.type, hfits1.major, hfits1.minor, hfits1.nlink, by
    show off + p.length < 2 ^ 32
    unfold maxfile ndirect nindirect bsize at hmax
    omega, hfits1.addrs⟩
  have htype1 : d.type ≠ 0 := by
    show (g1.V x).type ≠ 0
    rw [hw.attr.type]
    exact htypeV
  have hlaid2 := (hlaid.modify (x := x) hfits (fun _ => rfl) htype1).update hx
  rw [g1.modify_V_self] at hlaid2
  set g2 := (g1.modify x d).clean x with hg2
  have hV2 : g2.V x = d := g1.modify_V_self
  refine ⟨_, g2, ?_, ⟨hlaid2, fun z => ?_, fun z hz => ?_, fun z i hi => ?_⟩, hino, hfree⟩
  · unfold Mkfs.iappend
    rw [run_bind (run_rinode (iblock_lt_nsect h.toLaid hx)), h.dinode hx,
      show (g.V x).size = off from hnode.size, run_bind hrun]
    exact run_winode (iblock_lt_nsect hlaid hx)
  · by_cases hz : z = x
    · subst hz
      rw [update_self]
      have hattr : SameAttr { g.V z with size := max off (off + p.length) } (g2.V z) := by
        rw [hV2, max_eq_right (Nat.le_add_right ..)]
        exact ⟨hw.attr.type, hw.attr.major, hw.attr.minor, hw.attr.nlink, rfl⟩
      have his := hw.is hnode (le_refl _) htype hattr rfl rfl
      unfold Node.write at his
      rwa [splice_length] at his
    · rw [update_of_ne hz]
      exact (hw.is_other hz (h.node z)).2.frame (g1.modify_V_of_ne hz) (fun _ => rfl)
        (fun _ => Iff.rfl) fun h => h
  · obtain ⟨hz, hne⟩ := hz
    rcases hz with rfl | hz
    · exact hne rfl
    · exact (hw.stale hz).elim hne (h.stale z)
  · show g1.byte z i = 0
    rw [hw.byte]
    by_cases hz : z = x
    · subst hz
      rw [update_self, length_append] at hi
      rw [if_neg (by omega)]
      exact h.tail z i (by omega)
    · rw [update_of_ne hz] at hi
      rw [if_neg fun he => hz he.1]
      exact h.tail z i hi

/-- **`ialloc`** -/
theorem Stores.ialloc (h : Stores m g N) (type : ℕ) (hx : m.freeinode < ninodes)
    (h0 : (N m.freeinode).type = 0) (htype : type ≠ 0) (h16 : type < 2 ^ 16) :
    ∃ m' g', ialloc type m = some (m.freeinode, m') ∧
      Stores m' g' (update N m.freeinode ⟨type, 0, 0, 1, []⟩) ∧
      m'.freeinode = m.freeinode + 1 ∧ m'.freeblock = m.freeblock := by
  set x := m.freeinode
  set d : Dinode := { Dinode.zero with type := type, nlink := 1 }
  have hV0 : (g.V x).type = 0 := (h.node x).type.trans h0
  have hfits : d.Fits := ⟨h16, Nat.two_pow_pos 16, Nat.two_pow_pos 16,
    show 1 < 2 ^ 16 by decide, Nat.two_pow_pos 32, fun _ => Nat.two_pow_pos 32⟩
  have haddr : ∀ i, d.addr i = (g.V x).addr i := fun i => by
    rw [Ghost.addr_of_type_zero h.maps.toPoints hV0]
    unfold Dinode.addr
    split <;> rfl
  have hnext : Laid { m with freeinode := x + 1 } g :=
    ⟨h.maps, h.super, h.blank, h.nsect, h.used, h.start_le, h.le_end⟩
  have hlaid := (hnext.modify (x := x) hfits haddr htype).update hx
  rw [g.modify_V_self] at hlaid
  refine ⟨_, _, ?_, ⟨hlaid, fun z => ?_, fun z hz => ?_, fun z i hi => ?_⟩, rfl, rfl⟩
  · unfold Mkfs.ialloc
    show (Mkfs.winode x d >>= fun _ => pure x : MkfsM ℕ) { m with freeinode := x + 1 } = _
    rw [run_bind (run_winode (iblock_lt_nsect hnext hx))]
    rfl
  · by_cases hz : z = x
    · rw [hz, update_self]
      exact Ghost.is_new (d := d) h.maps.toPoints hV0 htype rfl
    · rw [update_of_ne hz]
      exact (h.node z).frame (g.modify_V_of_ne hz) (fun _ => rfl) (fun _ => Iff.rfl) fun h => h
  · obtain ⟨hz, hne⟩ := hz
    rcases hz with rfl | hz
    · exact hne rfl
    · exact h.stale z hz
  · show g.byte z i = 0
    by_cases hz : z = x
    · have hown : g.own (.data z (i / bsize)) = none :=
        Ghost.own_of_type_zero h.maps.toPoints (hz ▸ hV0) rfl
      unfold Ghost.byte
      rw [Ghost.block_of_none hown]
      exact Block.zeroed_apply _
    · rw [update_of_ne hz] at hi
      exact h.tail z i hi

/-- Appending what the calls of `read` return. -/
theorem Stores.iappends (hx : x < ninodes) (reads : List Bytes) {m : Mkfs} {g : Ghost} {N : ℕ → Node}
    (h : Stores m g N) (htype : (N x).type ≠ 0)
    (hmax : (N x).data.length + reads.flatten.length ≤ maxfile * bsize)
    (hroom : m.freeblock + blocksFor ((N x).data.length + reads.flatten.length) ≤
      geom.dataEnd + blocksFor (N x).data.length) :
    ∃ m' g', reads.forM (Mkfs.iappend x) m = some (⟨⟩, m') ∧
      Stores m' g' (update N x { N x with data := (N x).data ++ reads.flatten }) ∧
      m'.freeinode = m.freeinode ∧ m'.freeblock + blocksFor (N x).data.length =
        m.freeblock + blocksFor ((N x).data.length + reads.flatten.length) := by
  induction reads generalizing m g N with
  | nil =>
    refine ⟨m, g, rfl, ?_, rfl, rfl⟩
    rw [flatten_nil, append_nil, show update N x { N x with data := (N x).data } = N from
      update_eq_self x N]
    exact h
  | cons p reads ih =>
    rw [flatten_cons, length_append, ← Nat.add_assoc] at hmax hroom
    have hmono := blocksFor_mono
      (show (N x).data.length + p.length ≤ (N x).data.length + p.length + reads.flatten.length by omega)
    obtain ⟨m1, g1, hrun, hst, hino, hfree⟩ := h.iappend hx htype (p := p) (by omega) (by omega)
    set N1 := update N x { N x with data := (N x).data ++ p } with hN1
    have hself : N1 x = { N x with data := (N x).data ++ p } := update_self ..
    have hlen : (N1 x).data.length = (N x).data.length + p.length := by
      rw [hself, length_append]
    obtain ⟨m', g', hrun', hst', hino', hfree'⟩ := ih hst (by rw [hself]; exact htype)
      (by rw [hlen]; exact hmax) (by rw [hlen]; omega)
    refine ⟨m', g', ?_, ?_, hino'.trans hino, ?_⟩
    · show (Mkfs.iappend x p >>= fun _ => reads.forM (Mkfs.iappend x) : MkfsM PUnit) m = _
      rw [run_bind hrun]
      exact hrun'
    · rw [hself, hN1, update_idem, append_assoc] at hst'
      exact hst'
    · rw [hlen] at hfree'
      rw [flatten_cons, length_append, ← Nat.add_assoc]
      omega

/-! ### A whole image -/

/-- The inode that is not in use. -/
def noNode : Node := ⟨0, 0, 0, 0, []⟩

/-- The entries of the root directory. -/
def rootData (files : List Input) : Bytes :=
  direntOf dot rootino ++ direntOf dotdot rootino ++
    (files.zipIdx 2).flatMap fun f => direntOf (stripName f.1.name) f.2

/-- The files of an image, before the size of the root directory is rounded. -/
def nodeOf (files : List Input) (x : ℕ) : Node :=
  if x = rootino then ⟨tDir, 0, 0, 1, rootData files⟩
  else if 2 ≤ x then (files[x - 2]?).elim noNode fun f => ⟨tFile, 0, 0, 1, f.data⟩
  else noNode

theorem nodeOf_file {i : ℕ} {f : Input} (hf : files[i]? = some f) :
    nodeOf files (i + 2) = ⟨tFile, 0, 0, 1, f.data⟩ := by
  unfold nodeOf
  rw [if_neg (by unfold rootino; omega), if_pos (by omega), Nat.add_sub_cancel, hf]
  rfl

/-- The number of data blocks that an image needs. -/
def blocksOfAll (files : List Input) : ℕ :=
  blocksFor (direntSize * (files.length + 2)) + (files.map fun f => blocksFor f.data.length).sum

/-- The input files fit. -/
structure Fit (files : List Input) : Prop where
  count : files.length ≤ ninodes - 2
  names : ∀ f ∈ files, slash ∉ f.name
  sizes : ∀ f ∈ files, f.data.length ≤ maxfile * bsize
  blocks : blocksOfAll files ≤ nblocks

theorem length_direntOf (name : Bytes) (inum : ℕ) : (direntOf name inum).length = direntSize := by
  unfold direntOf Dirent.bytes strncpy
  simp only [length_append, length_take, length_cons, length_nil, length_replicate]
  unfold dirsiz direntSize
  omega

theorem length_rootData (files : List Input) :
    (rootData files).length = direntSize * (files.length + 2) := by
  have hrest : ∀ k, ((files.zipIdx k).flatMap fun f => direntOf (stripName f.1.name) f.2).length =
      direntSize * files.length := by
    induction files with
    | nil => exact fun _ => rfl
    | cons f files ih =>
      intro k
      rw [zipIdx_cons, flatMap_cons, length_append, length_direntOf, ih (k + 1),
        length_cons, Nat.mul_succ, Nat.add_comm]
  unfold rootData
  rw [length_append, length_append, length_direntOf, length_direntOf, hrest]
  unfold direntSize
  omega

theorem rootData_append (files : List Input) (f : Input) :
    rootData (files ++ [f]) = rootData files ++ direntOf (stripName f.name) (files.length + 2) := by
  unfold rootData
  rw [zipIdx_append, flatMap_append, ← append_assoc, Nat.add_comm 2]
  simp

theorem nodeOf_root (files : List Input) : nodeOf files rootino = ⟨tDir, 0, 0, 1, rootData files⟩ :=
  if_pos rfl

theorem nodeOf_new (files : List Input) : nodeOf files (files.length + 2) = noNode := by
  unfold nodeOf rootino
  rw [if_neg (by omega), if_pos (by omega), Nat.add_sub_cancel, getElem?_eq_none (le_refl _)]
  rfl

theorem nodeOf_append (files : List Input) (f : Input) :
    nodeOf (files ++ [f]) = update (update (nodeOf files) (files.length + 2)
      ⟨tFile, 0, 0, 1, f.data⟩) rootino ⟨tDir, 0, 0, 1, rootData (files ++ [f])⟩ := by
  funext x
  by_cases h1 : x = rootino
  · rw [h1, update_self, nodeOf_root]
  · rw [update_of_ne h1]
    by_cases h2 : x = files.length + 2
    · rw [h2, update_self]
      unfold nodeOf rootino
      rw [if_neg (by omega), if_pos (by omega), Nat.add_sub_cancel, getElem?_concat_length]
      rfl
    · rw [update_of_ne h2]
      unfold nodeOf
      rw [if_neg h1, if_neg h1]
      by_cases h3 : 2 ≤ x
      · rw [if_pos h3, if_pos h3]
        by_cases h4 : x - 2 < files.length
        · rw [getElem?_append_left h4]
        · rw [getElem?_eq_none (by rw [length_append, length_singleton]; omega),
            getElem?_eq_none (by omega)]
      · rw [if_neg h3, if_neg h3]

theorem blocksOfAll_append (files : List Input) (f : Input) :
    blocksOfAll (files ++ [f]) + blocksFor (rootData files).length = blocksOfAll files +
      blocksFor ((rootData files).length + direntSize) + blocksFor f.data.length := by
  unfold blocksOfAll
  rw [length_rootData, map_append, sum_append, length_append, length_singleton, ← Nat.mul_succ]
  simp only [map_cons, map_nil, sum_cons, sum_nil, Nat.add_zero, Nat.succ_eq_add_one]
  rw [show files.length + 1 + 2 = files.length + 2 + 1 by omega]
  omega

/-- The state after some input files. -/
structure Added (m : Mkfs) (g : Ghost) (files : List Input) : Prop extends
    Stores m g (nodeOf files) where
  freeinode : m.freeinode = files.length + 2
  freeblock : m.freeblock = geom.dataStart + blocksOfAll files

theorem dataEnd_eq : geom.dataEnd = geom.dataStart + nblocks := rfl

/-- **One input file** -/
theorem Added.addFile {f : Input} (h : Added m g files)
    (hcount : files.length + 1 ≤ ninodes - 2) (hname : slash ∉ f.name)
    (hsize : f.data.length ≤ maxfile * bsize) (hblocks : blocksOfAll (files ++ [f]) ≤ nblocks) :
    ∃ m' g', addFile rootino f m = some (⟨⟩, m') ∧ Added m' g' (files ++ [f]) := by
  have hadd := blocksOfAll_append files f
  have hfree := h.freeblock
  have hend := dataEnd_eq
  have hroot : (nodeOf files rootino).data.length = (rootData files).length := by rw [nodeOf_root]
  obtain ⟨m1, g1, hrun1, hst1, hino1, hfree1⟩ := h.ialloc tFile
    (by rw [h.freeinode]; unfold ninodes at *; omega) (by rw [h.freeinode, nodeOf_new]; rfl)
    (by decide) (by decide)
  rw [h.freeinode] at hrun1 hst1 hino1
  set x := files.length + 2
  have hne : x ≠ rootino := by
    unfold rootino
    omega
  have hroot1 : update (nodeOf files) x ⟨tFile, 0, 0, 1, []⟩ rootino = nodeOf files rootino :=
    update_of_ne hne.symm ..
  obtain ⟨m2, g2, hrun2, hst2, hino2, hfree2⟩ := hst1.iappend (x := rootino)
    (p := direntOf (stripName f.name) x) (by decide) (by rw [hroot1, nodeOf_root]; exact (by decide : tDir ≠ 0))
    (by
      rw [hroot1, hroot, length_direntOf, length_rootData]
      unfold maxfile ndirect nindirect bsize direntSize
      unfold ninodes at hcount
      omega)
    (by
      rw [hroot1, hroot, length_direntOf]
      omega)
  rw [hroot1, hroot, length_direntOf] at hfree2
  set N2 := update (update (nodeOf files) x ⟨tFile, 0, 0, 1, []⟩) rootino
    { update (nodeOf files) x ⟨tFile, 0, 0, 1, []⟩ rootino with
      data := (update (nodeOf files) x ⟨tFile, 0, 0, 1, []⟩ rootino).data ++
        direntOf (stripName f.name) x } with hN2
  have hself : N2 x = ⟨tFile, 0, 0, 1, []⟩ := by
    rw [hN2, update_of_ne hne, update_self]
  obtain ⟨m3, g3, hrun3, hst3, hino3, hfree3⟩ := Stores.iappends (x := x)
    (by unfold ninodes at *; omega) f.reads hst2 (by rw [hself]; decide)
    (by rw [hself]; simpa [Input.data] using hsize) (by
      rw [hself]
      simp only [length_nil, Nat.zero_add]
      have hzero : blocksFor 0 = 0 := rfl
      have hdata : blocksFor f.reads.flatten.length = blocksFor f.data.length := rfl
      omega)
  rw [hself] at hst3 hfree3
  simp only [nil_append, length_nil, Nat.zero_add] at hst3 hfree3
  refine ⟨m3, g3, ?_, ⟨?_, ?_, ?_⟩⟩
  · unfold Mkfs.addFile
    rw [run_guard hname, run_bind hrun1, run_bind hrun2]
    exact hrun3
  · have hnodes : update N2 x ⟨tFile, 0, 0, 1, f.reads.flatten⟩ = nodeOf (files ++ [f]) := by
      rw [nodeOf_append, hN2, update_comm hne.symm, update_idem, hroot1, nodeOf_root,
        rootData_append]
      rfl
    rw [hnodes] at hst3
    exact hst3
  · rw [hino3, hino2, hino1, length_append, length_singleton]
  · have hzero : blocksFor 0 = 0 := rfl
    have hdata : blocksFor f.reads.flatten.length = blocksFor f.data.length := rfl
    omega

theorem blocksOfAll_mono (files rest : List Input) : blocksOfAll files ≤ blocksOfAll (files ++ rest) := by
  unfold blocksOfAll
  rw [map_append, sum_append, length_append]
  have := blocksFor_mono (show direntSize * (files.length + 2) ≤
    direntSize * (files.length + rest.length + 2) from Nat.mul_le_mul_left _ (by omega))
  omega

/-- **All input files** -/
theorem Added.addFiles (rest : List Input) {m : Mkfs} {g : Ghost} (h : Added m g files)
    (hfit : Fit (files ++ rest)) :
    ∃ m' g', rest.forM (Mkfs.addFile rootino) m = some (⟨⟩, m') ∧ Added m' g' (files ++ rest) := by
  induction rest generalizing files m g with
  | nil =>
    rw [append_nil]
    exact ⟨m, g, rfl, h⟩
  | cons f rest ih =>
    have hassoc : files ++ f :: rest = files ++ [f] ++ rest := by simp
    have hf : f ∈ files ++ f :: rest := by simp
    have hcount := hfit.count
    rw [length_append, length_cons] at hcount
    obtain ⟨m1, g1, hrun, h1⟩ := h.addFile (by omega) (hfit.names f hf) (hfit.sizes f hf)
      ((blocksOfAll_mono (files ++ [f]) rest).trans (hassoc ▸ hfit.blocks))
    rw [hassoc] at hfit ⊢
    obtain ⟨m', g', hrun', h'⟩ := ih h1 hfit
    refine ⟨m', g', ?_, h'⟩
    show (Mkfs.addFile rootino f >>= fun _ => rest.forM (Mkfs.addFile rootino) : MkfsM PUnit) m = _
    rw [run_bind hrun]
    exact hrun'

/-- The image that `clear` leaves. -/
def cleared : Mkfs := (zeros size).write 1 mkfsSuper

theorem run_clear : clear (zeros 0) = some (⟨⟩, cleared) := by
  have hzero : ∀ n k, (range' k n).forM (fun i => wsect i Block.zeroed) (zeros k) =
      some (PUnit.unit, zeros (k + n)) := by
    intro n
    induction n with
    | zero => exact fun k => rfl
    | succ n ih =>
      intro k
      have hconst : update (fun _ : ℕ => Block.zeroed) k Block.zeroed = fun _ => Block.zeroed :=
        update_eq_self ..
      have hstep : wsect k Block.zeroed (zeros k) = some (PUnit.unit, zeros (k + 1)) := by
        show some (PUnit.unit, { zeros k with
          sect := update (fun _ : ℕ => Block.zeroed) k Block.zeroed, nsect := max k (k + 1) }) = _
        rw [hconst, max_eq_right (Nat.le_succ k)]
        rfl
      rw [range'_succ, show k + (n + 1) = k + 1 + n by omega, ← ih (k + 1)]
      exact run_bind hstep
  unfold clear
  rw [run_guard (by decide), range_eq_range', run_bind (hzero size 0), Nat.zero_add]
  exact run_wsect (m := zeros size) (show 1 < size by decide)

/-- No files at all. -/
def noFiles : Ghost := ⟨fun _ => Dinode.zero, fun _ => none, fun _ _ => Block.zeroed, fun _ => False⟩

theorem cleared_one : cleared.sect 1 = mkfsSuper := by
  show update (zeros size).sect 1 mkfsSuper 1 = _
  rw [update_self]

theorem super_cleared : geom.Super cleared.shadow := by
  have h1 : cleared.shadow 1 = mkfsSuper := by
    rw [shadow_of_ne _ Geom.bitmap_ne_one.symm]
    exact cleared_one
  exact ⟨by rw [h1]; decide, by rw [h1]; decide, by rw [h1]; decide⟩

theorem stores_cleared : Stores cleared noFiles fun _ => noNode := by
  have hsect : ∀ b, b ≠ 1 → cleared.sect b = Block.zeroed := fun b hb => update_of_ne hb ..
  refine ⟨⟨⟨⟨super_cleared, fun _ => Dinode.fits_zero, fun x hx _ => ?_, fun x i _ => ?_, nofun, fun _ _ => rfl,
    fun _ _ _ => rfl, nofun, nofun⟩, nofun, nofun, fun b hb => ?_⟩, cleared_one, fun b hb _ => hsect b ?_, rfl, rfl,
    by decide, by decide⟩, fun x => ?_, fun _ h => h, fun x i _ => Block.zeroed_apply _⟩
  · rw [shadow_of_ne _ (Geom.iblock_lt hx).ne, hsect _ (Nat.ne_of_gt (Geom.two_le_iblock x))]
    exact Block.dinode_zeroed _
  · unfold Dinode.addr
    split <;> rfl
  · unfold shadow
    rw [update_self, bit_usedBits (by decide), decide_eq_true_eq]
    exact ⟨.inl, fun h => h.resolve_right nofun⟩
  · have : geom.dataStart ≤ b := hb
    have h29 : geom.dataStart = 29 := rfl
    omega
  · refine ⟨rfl, rfl, rfl, rfl, rfl, fun {j} => ?_, fun h => absurd rfl h, fun _ => rfl⟩
    exact ⟨fun h => absurd rfl h, nofun⟩

theorem added_start : ∃ m g, makeRoot cleared = some (rootino, m) ∧ Added m g [] := by
  obtain ⟨m1, g1, hrun1, hst1, hino1, hfree1⟩ := stores_cleared.ialloc tDir (by decide) rfl
    (by decide) (by decide)
  set N1 := update (fun _ => noNode) cleared.freeinode ⟨tDir, 0, 0, 1, []⟩ with hN1
  have h1 : N1 rootino = ⟨tDir, 0, 0, 1, []⟩ := rfl
  have hlen : ∀ name, (direntOf name rootino).length = 16 := fun name => length_direntOf name rootino
  have hb0 : blocksFor 0 = 0 := rfl
  have hb16 : blocksFor 16 = 1 := rfl
  have hb32 : blocksFor 32 = 1 := rfl
  have hmax : maxfile * bsize = 71680 := rfl
  have hend : geom.dataEnd = 1014 := rfl
  have hfb1 : m1.freeblock = 29 := hfree1
  obtain ⟨m2, g2, hrun2, hst2, hino2, hfree2⟩ := hst1.iappend (x := rootino) (p := direntOf dot rootino)
    (by decide) (by rw [h1]; exact (by decide : tDir ≠ 0))
    (by rw [h1, hlen, length_nil, hmax]; omega)
    (by rw [h1, hlen, length_nil, hfb1, hend, hb0, Nat.zero_add, hb16]; omega)
  rw [h1, hlen, length_nil, hfb1, hb0, Nat.zero_add, hb16] at hfree2
  rw [h1, nil_append] at hst2
  set N2 := update N1 rootino ⟨tDir, 0, 0, 1, direntOf dot rootino⟩ with hN2
  have h2 : N2 rootino = ⟨tDir, 0, 0, 1, direntOf dot rootino⟩ := update_self ..
  obtain ⟨m3, g3, hrun3, hst3, hino3, hfree3⟩ := hst2.iappend (x := rootino)
    (p := direntOf dotdot rootino) (by decide) (by rw [h2]; exact (by decide : tDir ≠ 0))
    (by rw [h2, hlen, hlen, hmax]; omega)
    (by rw [h2, hlen, hlen, hend, hb16, hb32]; omega)
  rw [h2, hlen, hlen, hb16, hb32] at hfree3
  rw [h2] at hst3
  refine ⟨m3, g3, ?_, ⟨?_, ?_, ?_⟩⟩
  · unfold makeRoot
    rw [run_bind hrun1]
    show (do
      guard (rootino = rootino)
      Mkfs.iappend rootino (direntOf dot rootino)
      Mkfs.iappend rootino (direntOf dotdot rootino)
      pure rootino : MkfsM ℕ) m1 = _
    rw [run_guard rfl, run_bind hrun2, run_bind hrun3]
    rfl
  · have hnodes : update N2 rootino
        ⟨tDir, 0, 0, 1, direntOf dot rootino ++ direntOf dotdot rootino⟩ = nodeOf [] := by
      funext x
      by_cases hx : x = rootino
      · rw [hx, update_self, nodeOf_root]
        rfl
      · rw [update_of_ne hx, hN2, update_of_ne hx, hN1]
        unfold nodeOf
        rw [if_neg hx, update_of_ne (show x ≠ cleared.freeinode from hx)]
        split_ifs <;> rfl
    rw [hnodes] at hst3
    exact hst3
  · rw [hino3, hino2, hino1]
    rfl
  · have hall : blocksOfAll [] = 1 := rfl
    have hstart : geom.dataStart = 29 := rfl
    omega

/-- The size of the root directory that `fixRoot` sets. -/
def rootSize (files : List Input) : ℕ := (direntSize * (files.length + 2) / bsize + 1) * bsize

/-- **What `mkfs` makes**: a file system with the input files, and a root directory with zeros
after its entries. -/
structure Formatted (m : Mkfs) (g : Ghost) (files : List Input) : Prop where
  count : files.length ≤ ninodes - 2
  freeinode : m.freeinode = files.length + 2
  maps : Maps geom m.sect g
  super : m.sect 1 = mkfsSuper
  clear : ∀ b, geom.dataEnd ≤ b → b < bpb → (m.sect geom.bitmap).bit b = false
  stale : ∀ x, ¬ g.stale x
  node : ∀ x, x ≠ rootino → g.Is x (nodeOf files x)
  root : SameAttr ⟨tDir, 0, 0, 1, rootSize files, fun _ => 0⟩ (g.V rootino)
  entries : g.bytes rootino 0 (rootSize files) = rootData files ++
    replicate (rootSize files - (rootData files).length) 0
  blocks : ∀ j, g.own (.data rootino j) ≠ none ↔ bsize * j < (rootData files).length
  ind : g.own (.ind rootino) = none
  log : ∀ b, geom.dataEnd ≤ b → b < size → m.sect b = Block.zeroed

theorem Added.finish (h : Added m g files) (hcount : files.length ≤ ninodes - 2) :
    ∃ m' g', Mkfs.finish rootino m = some (⟨⟩, m') ∧ Formatted m' g' files := by
  have hroot : rootino < ninodes := by decide
  have hnode := h.node rootino
  rw [nodeOf_root] at hnode
  have hlen := length_rootData files
  have hsize : (g.V rootino).size = direntSize * (files.length + 2) := hnode.size.trans hlen
  have hsmall : direntSize * (files.length + 2) ≤ 3200 := by
    unfold ninodes at hcount
    unfold direntSize
    omega
  have hfits0 := h.maps.fits rootino
  set d : Dinode := { g.V rootino with size := rootSize files }
  have hfits : d.Fits := ⟨hfits0.type, hfits0.major, hfits0.minor, hfits0.nlink, by
    show rootSize files < 2 ^ 32
    unfold rootSize bsize
    omega, hfits0.addrs⟩
  have htype : d.type ≠ 0 := by
    show (g.V rootino).type ≠ 0
    rw [hnode.type]
    exact (by decide : tDir ≠ 0)
  have hlaid := (h.modify (x := rootino) hfits (fun _ => rfl) htype).update hroot
  rw [g.modify_V_self] at hlaid
  set m2 := m.write (iblock rootino) ((m.sect (iblock rootino)).setDinode (rootino % ipb) d)
  set g2 := (g.modify rootino d).clean rootino
  have hsect : (m2.write geom.bitmap (usedBits m2.usedblocks)).sect = m2.shadow := by
    rw [hlaid.used]
    rfl
  refine ⟨m2.write geom.bitmap (usedBits m2.usedblocks), g2, ?_, ⟨hcount, h.freeinode, ?_, ?_, fun b hb _ => ?_,
    fun x hx => ?_, fun x hx => ?_, ?_, ?_, fun j => ?_, ?_, fun b hb hlt => ?_⟩⟩
  · have hfix : fixRoot rootino m = some (⟨⟩, m2) := by
      unfold fixRoot
      rw [run_bind (run_rinode (iblock_lt_nsect h.toLaid hroot)), h.dinode hroot, hsize]
      exact run_winode (iblock_lt_nsect h.toLaid hroot)
    have hused : m2.usedblocks < 512 * 8 := by
      have hend : geom.dataEnd = 1014 := rfl
      have hle := hlaid.le_end
      have hu := hlaid.used
      omega
    unfold Mkfs.finish
    rw [run_bind hfix]
    show balloc m2.usedblocks m2 = _
    unfold balloc
    rw [run_guard hused]
    refine run_wsect ?_
    rw [hlaid.nsect]
    decide
  · rw [hsect]
    exact hlaid.maps
  · rw [hsect, m2.shadow_of_ne Geom.bitmap_ne_one.symm]
    exact hlaid.super
  · rw [hsect]
    unfold shadow
    rw [update_self, bit_usedBits (hlaid.le_end.trans geom.dataEnd_le)]
    exact decide_eq_false (Nat.not_lt.mpr (hlaid.le_end.trans hb))
  · obtain ⟨hx, hne⟩ := hx
    rcases hx with rfl | hx
    · exact hne rfl
    · exact h.stale x hx
  · exact (h.node x).frame (g.modify_V_of_ne hx) (fun _ => rfl) (fun _ => Iff.rfl) fun h => h
  · have hV : g2.V rootino = d := g.modify_V_self (x := rootino) (d := d)
    rw [hV]
    exact ⟨hnode.type, hnode.major, hnode.minor, hnode.nlink, rfl⟩
  · have hle : (rootData files).length ≤ rootSize files := by
      rw [hlen]
      unfold rootSize bsize
      omega
    have hdata : g.bytes rootino 0 (rootData files).length = rootData files := by
      have := hnode.data
      rwa [hnode.size, eq_comm] at this
    have hzero : g.bytes rootino (rootData files).length (rootSize files - (rootData files).length) =
        replicate (rootSize files - (rootData files).length) 0 := by
      refine eq_replicate_iff.mpr ⟨Ghost.length_bytes .., fun c hc => ?_⟩
      obtain ⟨i, -, rfl⟩ := mem_map.mp hc
      exact h.tail rootino _ (by rw [nodeOf_root]; exact Nat.le_add_right ..)
    show g.bytes rootino 0 (rootSize files) = _
    obtain ⟨k, hk⟩ := Nat.exists_eq_add_of_le hle
    rw [hk, Nat.add_sub_cancel_left] at hzero ⊢
    rw [Ghost.bytes_add, Nat.zero_add, hdata, hzero]
  · rw [← hnode.size]
    exact hnode.full
  · by_contra hind
    have := hnode.ind hind
    unfold ndirect bsize at this
    omega
  · have hne : b ≠ geom.bitmap := fun he => by
      have := Geom.bitmap_lt (G := geom)
      omega
    rw [hsect, m2.shadow_of_ne hne]
    exact hlaid.blank b (hlaid.le_end.trans hb) hlt

end Laid

end Mkfs

open Mkfs in
/-- **`mkfs` succeeds on every list of input files that fits, and makes a file system of them.** -/
theorem mkfs_formatted {files : List Input} (hfit : Fit files) :
    ∃ m g, mkfs files = some m ∧ Formatted m g files := by
  obtain ⟨m0, g0, hrun0, hadd0⟩ := added_start
  obtain ⟨m1, g1, hrun1, hadd1⟩ := hadd0.addFiles files hfit
  rw [nil_append] at hadd1
  obtain ⟨m, g, hrun, hform⟩ := hadd1.finish hfit.count
  refine ⟨m, g, ?_, hform⟩
  have hmain : main files (zeros 0) = some (⟨⟩, m) := by
    unfold main
    rw [run_bind run_clear, run_bind hrun0, run_bind hrun1]
    exact hrun
  show (main files (zeros 0)).map Prod.snd = some m
  rw [hmain]
  rfl

end Fs

end Mcertikos
