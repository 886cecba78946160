/-
The on-disk format (`fs/dinode.h`, `fs/dir.h`, `fs/stat.h`) and the strings it holds.

A block is read as an array of disk inodes, as an array of bits, as an array of
block numbers, or as plain bytes; a directory is a file of 16-byte entries.
-/
import Mcertikos.Fs.Disk

namespace Mcertikos

namespace Fs

/-- Bytes in memory.  A C string is given by its bytes before the terminating NUL. -/
abbrev Bytes := List UInt8

/-! ### Constants -/

/-- `NDIRECT`. -/
def ndirect : ℕ := 12

/-- `NINDIRECT`. -/
def nindirect : ℕ := 128

/-- `MAXFILE`. -/
def maxfile : ℕ := ndirect + nindirect

/-- `IPB`. -/
def ipb : ℕ := 8

/-- `BPB`. -/
def bpb : ℕ := 4096

/-- `IBLOCK(i)`. -/
def iblock (i : ℕ) : ℕ := i / ipb + 2

/-- `BBLOCK(b, ninodes)`. -/
def bblock (b ninodes : ℕ) : ℕ := b / bpb + ninodes / ipb + 3

/-- `ROOTINO`. -/
def rootino : ℕ := 1

/-- `DIRSIZ`. -/
def dirsiz : ℕ := 14

/-- `sizeof(struct dirent)`. -/
def direntSize : ℕ := 16

/-- `T_DIR`. -/
def tDir : ℕ := 1

/-- `T_FILE`. -/
def tFile : ℕ := 2

/-- `T_DEV`. -/
def tDev : ℕ := 3

/-! ### The superblock -/

/-- `struct superblock`. -/
structure Superblock where
  size : ℕ
  nblocks : ℕ
  ninodes : ℕ
  nlog : ℕ

def Superblock.load (data : Block) : Superblock :=
  ⟨data.read32 0, data.read32 4, data.read32 8, data.read32 12⟩

/-! ### Disk inodes -/

/-- `struct dinode`; the `int16_t` fields are given by their 16 bits. -/
@[ext] structure Dinode where
  type : ℕ
  major : ℕ
  minor : ℕ
  nlink : ℕ
  size : ℕ
  addrs : Fin 13 → ℕ

namespace Dinode

/-- `addrs[i]`. -/
def addr (d : Dinode) (i : ℕ) : ℕ := if h : i < 13 then d.addrs ⟨i, h⟩ else 0

def setAddr (d : Dinode) (i v : ℕ) : Dinode :=
  { d with addrs := fun j => if j.val = i then v else d.addrs j }

/-- What `memset(dip, 0, sizeof(*dip))` leaves. -/
def zero : Dinode := ⟨0, 0, 0, 0, 0, fun _ => 0⟩

/-- Byte `k` of a little-endian number. -/
def leByte (v k : ℕ) : UInt8 := UInt8.ofNat (v / 256 ^ k)

/-- Byte `x` of the 64 bytes of the structure. -/
def byte (d : Dinode) (x : ℕ) : UInt8 :=
  if x < 2 then leByte d.type x
  else if x < 4 then leByte d.major (x - 2)
  else if x < 6 then leByte d.minor (x - 4)
  else if x < 8 then leByte d.nlink (x - 6)
  else if x < 12 then leByte d.size (x - 8)
  else leByte (d.addr ((x - 12) / 4)) (x % 4)

end Dinode

/-! ### Strings and directory entries -/

/-- `strncmp`, on strings that may end before their NUL is reached. -/
def strncmp : ℕ → Bytes → Bytes → ℤ
  | 0, _, _ => 0
  | n + 1, p, q =>
    if p.headD 0 ≠ 0 ∧ p.headD 0 = q.headD 0 then strncmp n p.tail q.tail
    else (p.headD 0).toNat - (q.headD 0).toNat

/-- The `n` bytes that `strncpy` of a string writes. -/
def strncpy (n : ℕ) (t : Bytes) : Bytes := (t ++ List.replicate n 0).take n

/-- `dir_namecmp`. -/
def dirNamecmp (s t : Bytes) : ℤ := strncmp dirsiz s t

/-- The part of a buffer before its first NUL. -/
def cString (buf : Bytes) : Bytes := buf.takeWhile (· ≠ 0)

/-- `struct dirent`. -/
structure Dirent where
  inum : ℕ
  name : Bytes

namespace Dirent

def load (bytes : Bytes) : Dirent :=
  ⟨(bytes.getD 0 0).toNat + 256 * (bytes.getD 1 0).toNat, bytes.drop 2⟩

def bytes (de : Dirent) : Bytes :=
  [Dinode.leByte de.inum 0, Dinode.leByte de.inum 1] ++ de.name

end Dirent

/-- `'/'`. -/
def slash : UInt8 := 47

/-- `"."`. -/
def dot : Bytes := [46]

/-- `".."`. -/
def dotdot : Bytes := [46, 46]

end Fs

/-! ### Blocks -/

namespace Block

open Fs

def zeroed : Block := ofMem fun _ => 0

/-- `m` bytes from `off` on. -/
def slice (b : Block) (off m : ℕ) : Bytes := (List.range m).map fun i => b.1 (off + i)

/-- The block with `src` copied to `off`. -/
def splice (b : Block) (off : ℕ) (src : Bytes) : Block :=
  ofMem fun x => if off ≤ x ∧ x < off + src.length then src.getD (x - off) 0 else b.1 x

/-- Entry `i` of a block of inodes. -/
def dinode (b : Block) (i : ℕ) : Dinode where
  type := b.read16 (64 * i)
  major := b.read16 (64 * i + 2)
  minor := b.read16 (64 * i + 4)
  nlink := b.read16 (64 * i + 6)
  size := b.read32 (64 * i + 8)
  addrs := fun j => b.read32 (64 * i + 12 + 4 * j.val)

def setDinode (b : Block) (i : ℕ) (d : Dinode) : Block :=
  ofMem fun x => if 64 * i ≤ x ∧ x < 64 * i + 64 then d.byte (x - 64 * i) else b.1 x

/-- Entry `j` of an indirect block. -/
def entry (b : Block) (j : ℕ) : ℕ := b.read32 (4 * j)

def setEntry (b : Block) (j v : ℕ) : Block := b.write32 (4 * j) v

/-- The mask `1 << (bi % 8)`. -/
def mask (bi : ℕ) : UInt8 := UInt8.ofNat (2 ^ (bi % 8))

/-- Bit `bi` of a bitmap block. -/
def bit (b : Block) (bi : ℕ) : Bool := b.1 (bi / 8) &&& mask bi ≠ 0

def setBit (b : Block) (bi : ℕ) : Block :=
  ofMem fun x => if x = bi / 8 then b.1 x ||| mask bi else b.1 x

def clearBit (b : Block) (bi : ℕ) : Block :=
  ofMem fun x => if x = bi / 8 then b.1 x &&& ~~~ mask bi else b.1 x

/-- The first clear bit from `bi` on, `k` bits left in the block, below block `size`. -/
def freeBitFrom (data : Block) (b size : ℕ) : ℕ → ℕ → Option ℕ
  | 0, _ => none
  | k + 1, bi =>
    if b + bi < size then
      if data.bit bi = false then some bi else freeBitFrom data b size k (bi + 1)
    else none

end Block

end Mcertikos
