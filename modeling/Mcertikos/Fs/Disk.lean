/-
Disk blocks and the two IDE drives (`dev/disk/ide.c`).

A `Block` is the 512 bytes of a sector; beyond them the underlying memory is
zero, so that two blocks with the same bytes are equal.  `ide_start` sends the
low bit of the device number and 28 bits of the sector number to the controller,
which is what `lba` computes.

* `Block.read32_write32_same`, `Block.read32_write32_of_disjoint` — the access rules;
* `lba_inj` — different sectors of the two drives have different addresses.
-/
import Mcertikos.Lib.Memory

namespace Mcertikos

open Memory

/-- `BSIZE`. -/
def bsize : ℕ := 512

/-- The contents of a sector. -/
def Block : Type := { m : Mem // ∀ x, bsize ≤ x → m x = 0 }

namespace Block

/-- The first 512 bytes of a memory. -/
def ofMem (m : Mem) : Block := ⟨fun x => if x < bsize then m x else 0, fun x hx => if_neg (by omega)⟩

instance : Inhabited Block := ⟨ofMem fun _ => 0⟩

def read16 (b : Block) (a : ℕ) : ℕ := Memory.read16 b.1 a

def read32 (b : Block) (a : ℕ) : ℕ := Memory.read32 b.1 a

def write32 (b : Block) (a v : ℕ) : Block := ofMem (Memory.write32 b.1 a v)

theorem read32_ofMem {m : Mem} {a : ℕ} (ha : a + 4 ≤ bsize) :
    (ofMem m).read32 a = Memory.read32 m a :=
  read32_congr fun _ _ hx => if_pos (by omega)

theorem read32_write32_same {b : Block} {a v : ℕ} (hv : v < 2 ^ 32) (ha : a + 4 ≤ bsize) :
    (b.write32 a v).read32 a = v :=
  (read32_ofMem ha).trans (Memory.read32_write32_same hv)

theorem write32_of_outside {b : Block} {a v x : ℕ} (h : x < a ∨ a + 4 ≤ x) :
    (b.write32 a v).1 x = b.1 x := by
  show (if x < bsize then Memory.write32 b.1 a v x else 0) = b.1 x
  split
  · exact Memory.write32_of_outside h
  · exact (b.2 x (by omega)).symm

theorem read32_write32_of_disjoint {b : Block} {a c v : ℕ} (h : a + 4 ≤ c ∨ c + 4 ≤ a) :
    (b.write32 a v).read32 c = b.read32 c :=
  read32_congr fun _ _ _ => write32_of_outside (by omega)

end Block

/-- The sectors of both drives, by address. -/
abbrev Disk := ℕ → Block

/-- The address `ide_start` sends for a sector: bit 28 selects the drive. -/
def lba (dev sector : ℕ) : ℕ := dev % 2 * 2 ^ 28 + sector % 2 ^ 28

/-- A sector of one of the two drives. -/
def OnDrive (dev sector : ℕ) : Prop := dev < 2 ∧ sector < 2 ^ 28

instance (dev sector : ℕ) : Decidable (OnDrive dev sector) := by
  unfold OnDrive
  infer_instance

theorem lba_inj {d s d' s' : ℕ} (h : OnDrive d s) (h' : OnDrive d' s') (he : lba d s = lba d' s') :
    d = d' ∧ s = s' := by
  unfold OnDrive at h h'
  unfold lba at he
  omega

end Mcertikos
