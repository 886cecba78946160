/-
Blocks and inodes (`fs/block.c`, `fs/inode.c`).

Every function is the program of the source, with its loops as recursions on the number
of rounds.

Design notes: `int16_t` values are given by their 16 bits.  No device table is ever
installed, so a device inode with a valid major number is a call through address 0.
-/
import Mcertikos.Fs.Kernel

namespace Mcertikos

open List

namespace Fs

/-! ### Blocks -/

def readSuperblock (dev : ℕ) : FsM Superblock := do
  let bp ← bufcacheRead dev 1
  let data ← bufData bp
  bufcacheRelease bp
  pure (Superblock.load data)

def blockZero (dev bno : ℕ) : FsM PUnit := do
  let bp ← bufcacheRead dev bno
  setBufData bp Block.zeroed
  logWrite bp
  bufcacheRelease bp

/-- The outer loop of `block_alloc` from block `b` on, `k` bitmap blocks left.  The panic
at the end has lost its macro: the function falls off its end. -/
def blockAllocFrom (dev : ℕ) (sb : Superblock) : ℕ → ℕ → FsM ℕ
  | 0, _ => do
    note .exhausts
    junk
  | k + 1, b => do
    let bp ← bufcacheRead dev (bblock b sb.ninodes)
    let data ← bufData bp
    match data.freeBitFrom b sb.size bpb 0 with
    | some bi => do
      Prog.when (sb.size - sb.nlog ≤ b + bi) (note .exhausts)
      setBufData bp (data.setBit bi)
      logWrite bp
      bufcacheRelease bp
      blockZero dev (b + bi)
      pure (b + bi)
    | none => do
      bufcacheRelease bp
      blockAllocFrom dev sb k (b + bpb)

def blockAlloc (dev : ℕ) : FsM ℕ := do
  note .allocates
  let sb ← readSuperblock dev
  blockAllocFrom dev sb ((sb.size + bpb - 1) / bpb) 0

def blockFree (dev b : ℕ) : FsM PUnit := do
  let sb ← readSuperblock dev
  let bp ← bufcacheRead dev (bblock b sb.ninodes)
  let data ← bufData bp
  if data.bit (b % bpb) = false then kernPanic "freeing free block"
  else do
    setBufData bp (data.clearBit (b % bpb))
    logWrite bp
    bufcacheRelease bp

/-! ### The inode cache -/

/-- The section of `inode_get`: the slot of the inode, or else the first empty one. -/
def Kmem.inodeGet (k : Kmem) (dev inum : ℕ) : Except Stop (ℕ × Kmem) :=
  match (range ninode).find? fun i =>
      0 < (k.inode i).ref ∧ (k.inode i).dev = dev ∧ (k.inode i).inum = inum with
  | some i => .ok (i, k.setInode i { k.inode i with ref := (k.inode i).ref + 1 })
  | none =>
    match (range ninode).find? fun i => (k.inode i).ref = 0 with
    | some i => .ok (i, k.setInode i ⟨dev, inum, 1, false, false, (k.inode i).d⟩)
    | none => .error (.panic "inode_get: no inodes")

def inodeGet (dev inum : ℕ) : FsM ℕ := critical fun k => k.inodeGet dev inum

/-- Everything `inode_get` can do. -/
theorem Kmem.inodeGet_cases {k k' : Kmem} {dev inum ip : ℕ} (h : k.inodeGet dev inum = .ok (ip, k')) :
    ip < ninode ∧
    ((0 < (k.inode ip).ref ∧ (k.inode ip).dev = dev ∧ (k.inode ip).inum = inum ∧
      k' = k.setInode ip { k.inode ip with ref := (k.inode ip).ref + 1 }) ∨
    ((∀ i < ninode, ¬ (0 < (k.inode i).ref ∧ (k.inode i).dev = dev ∧ (k.inode i).inum = inum)) ∧
      (k.inode ip).ref = 0 ∧ k' = k.setInode ip ⟨dev, inum, 1, false, false, (k.inode ip).d⟩)) := by
  unfold Kmem.inodeGet at h
  cases hf : (range ninode).find? fun i =>
      decide (0 < (k.inode i).ref ∧ (k.inode i).dev = dev ∧ (k.inode i).inum = inum) with
  | some i =>
    rw [hf] at h
    cases h
    have hkey := find?_some hf
    rw [decide_eq_true_eq] at hkey
    exact ⟨mem_range.mp (mem_of_find?_eq_some hf), .inl ⟨hkey.1, hkey.2.1, hkey.2.2, rfl⟩⟩
  | none =>
    have hno : ∀ i < ninode, ¬ (0 < (k.inode i).ref ∧ (k.inode i).dev = dev ∧
        (k.inode i).inum = inum) := fun i hi hkey =>
      find?_eq_none.mp hf i (mem_range.mpr hi) (decide_eq_true hkey)
    rw [hf] at h
    cases hg : (range ninode).find? fun i => decide ((k.inode i).ref = 0) with
    | some i =>
      simp only [hg] at h
      cases h
      have hfree := find?_some hg
      rw [decide_eq_true_eq] at hfree
      exact ⟨mem_range.mp (mem_of_find?_eq_some hg), .inr ⟨hno, hfree, rfl⟩⟩
    | none =>
      simp only [hg] at h
      cases h

/-- The loop of `inode_alloc` from `inum` on, `k` inodes left. -/
def inodeAllocFrom (dev type : ℕ) : ℕ → ℕ → FsM ℕ
  | 0, _ => kernPanic "inode_alloc: no inodes"
  | k + 1, inum => do
    let bp ← bufcacheRead dev (iblock inum)
    let data ← bufData bp
    if (data.dinode (inum % ipb)).type = 0 then do
      setBufData bp (data.setDinode (inum % ipb) { Dinode.zero with type := type })
      logWrite bp
      bufcacheRelease bp
      inodeGet dev inum
    else do
      bufcacheRelease bp
      inodeAllocFrom dev type k (inum + 1)

def inodeAlloc (dev type : ℕ) : FsM ℕ := do
  let sb ← readSuperblock dev
  inodeAllocFrom dev type (sb.ninodes - 1) 1

def inodeUpdate (ip : ℕ) : FsM PUnit := do
  let i ← getInode ip
  let bp ← bufcacheRead i.dev (iblock i.inum)
  let data ← bufData bp
  let i ← getInode ip
  setBufData bp (data.setDinode (i.inum % ipb) i.d)
  logWrite bp
  bufcacheRelease bp

def inodeDup (ip : ℕ) : FsM PUnit :=
  modifyMem fun k => k.setInode ip { k.inode ip with ref := (k.inode ip).ref + 1 }

def inodeLock (ip : ℕ) : FsM PUnit := do
  critical fun k => if (k.inode ip).ref < 1 then .error (.panic "inode_lock") else .ok (⟨⟩, k)
  critical fun k =>
    if (k.inode ip).busy then .error .asleep
    else .ok (⟨⟩, k.setInode ip { k.inode ip with busy := true })
  let i ← getInode ip
  Prog.when (i.valid = false) do
    let bp ← bufcacheRead i.dev (iblock i.inum)
    let data ← bufData bp
    modifyInode ip fun _ => data.dinode (i.inum % ipb)
    bufcacheRelease bp
    modifyMem fun k => k.setInode ip { k.inode ip with valid := true }
    let i ← getInode ip
    Prog.when (i.d.type = 0) (kernPanic "inode_lock: no type")

def inodeUnlock (ip : ℕ) : FsM PUnit :=
  critical fun k =>
    if (k.inode ip).busy = false ∨ (k.inode ip).ref < 1 then .error (.panic "inode_unlock")
    else .ok (⟨⟩, k.setInode ip { k.inode ip with busy := false })

/-! ### Inode contents -/

/-- `if ((addr = ip->addrs[i]) == 0) ip->addrs[i] = addr = block_alloc(ip->dev)`. -/
def bmapAddr (ip i : ℕ) : FsM ℕ := do
  let x ← getInode ip
  if x.d.addr i = 0 then do
    let addr ← blockAlloc x.dev
    modifyInode ip fun d => d.setAddr i addr
    pure addr
  else pure (x.d.addr i)

def bmap (ip bn : ℕ) : FsM ℕ := do
  if bn < ndirect then bmapAddr ip bn
  else if bn - ndirect < nindirect then do
    let addr ← bmapAddr ip ndirect
    let x ← getInode ip
    let bp ← bufcacheRead x.dev addr
    let a ← bufData bp
    if a.entry (bn - ndirect) = 0 then do
      let addr ← blockAlloc x.dev
      let a ← bufData bp
      setBufData bp (a.setEntry (bn - ndirect) addr)
      logWrite bp
      bufcacheRelease bp
      pure addr
    else do
      bufcacheRelease bp
      pure (a.entry (bn - ndirect))
  else kernPanic "bmap: out of range"

def inodeTrunc (ip : ℕ) : FsM PUnit := do
  Prog.forRange (fun i => do
    let x ← getInode ip
    Prog.when (x.d.addr i ≠ 0) do
      blockFree x.dev (x.d.addr i)
      modifyInode ip fun d => d.setAddr i 0) ndirect 0
  let x ← getInode ip
  Prog.when (x.d.addr ndirect ≠ 0) do
    let bp ← bufcacheRead x.dev (x.d.addr ndirect)
    Prog.forRange (fun j => do
      let a ← bufData bp
      Prog.when (a.entry j ≠ 0) (blockFree x.dev (a.entry j))) nindirect 0
    bufcacheRelease bp
    let x ← getInode ip
    blockFree x.dev (x.d.addr ndirect)
    modifyInode ip fun d => d.setAddr ndirect 0
  modifyInode ip fun d => { d with size := 0 }
  inodeUpdate ip

/-- The first section of `inode_put`: whether the inode has to be freed; if not, the
reference is dropped. -/
def Kmem.inodePut (k : Kmem) (ip : ℕ) : Except Stop (Bool × Kmem) :=
  if (k.inode ip).ref = 1 ∧ (k.inode ip).valid ∧ (k.inode ip).d.nlink = 0 then
    if (k.inode ip).busy then .error (.panic "inode_put busy")
    else .ok (true, k.setInode ip { k.inode ip with busy := true })
  else .ok (false, k.setInode ip { k.inode ip with ref := (k.inode ip).ref - 1 })

/-- Everything the first section of `inode_put` can do. -/
theorem Kmem.inodePut_cases {k k' : Kmem} {ip : ℕ} {last : Bool}
    (h : k.inodePut ip = .ok (last, k')) :
    (last = true ∧ ((k.inode ip).ref = 1 ∧ (k.inode ip).valid ∧ (k.inode ip).d.nlink = 0) ∧
      (k.inode ip).busy = false ∧ k' = k.setInode ip { k.inode ip with busy := true }) ∨
    (last = false ∧ ¬ ((k.inode ip).ref = 1 ∧ (k.inode ip).valid ∧ (k.inode ip).d.nlink = 0) ∧
      k' = k.setInode ip { k.inode ip with ref := (k.inode ip).ref - 1 }) := by
  unfold Kmem.inodePut at h
  split at h
  · rename_i hlast
    split at h
    · cases h
    · rename_i hbusy
      cases h
      exact .inl ⟨rfl, hlast, by simpa using hbusy, rfl⟩
  · rename_i hlast
    cases h
    exact .inr ⟨rfl, hlast, rfl⟩

def inodePut (ip : ℕ) : FsM PUnit := do
  let last ← critical fun k => k.inodePut ip
  Prog.when (last = true) do
    note .frees
    inodeTrunc ip
    modifyInode ip fun d => { d with type := 0 }
    inodeUpdate ip
    modifyMem fun k => k.setInode ip
      { k.inode ip with busy := false, valid := false, ref := (k.inode ip).ref - 1 }

def inodeUnlockput (ip : ℕ) : FsM PUnit := do
  inodeUnlock ip
  inodePut ip

/-- The rounds of the loop of `inode_read`, `rem = n - tot` bytes to go. -/
def inodeReadLoop (ip : ℕ) : ℕ → ℕ → ℕ → Bytes → FsM Bytes
  | 0, _, _, acc => pure acc
  | k + 1, off, rem, acc =>
    if rem = 0 then pure acc
    else do
      let addr ← bmap ip (off / bsize)
      let x ← getInode ip
      let bp ← bufcacheRead x.dev addr
      let data ← bufData bp
      let m := min rem (bsize - off % bsize)
      bufcacheRelease bp
      inodeReadLoop ip k (off + m) (rem - m) (acc ++ data.slice (off % bsize) m)

/-- `inode_read`: the bytes read, or `none` for `-1`. -/
def inodeRead (ip off n : ℕ) : FsM (Option Bytes) := do
  let x ← getInode ip
  if x.d.type = tDev then
    if ndev ≤ x.d.major then pure none else kernPanic "devsw"
  else if x.d.size < off ∨ (off + n) % 2 ^ 32 < off then pure none
  else do
    let n := if x.d.size < off + n then x.d.size - off else n
    let bytes ← inodeReadLoop ip n off n []
    pure (some bytes)

/-- The rounds of the loop of `inode_write`; the offset after the last one is returned. -/
def inodeWriteLoop (ip : ℕ) : ℕ → ℕ → Bytes → FsM ℕ
  | 0, off, _ => pure off
  | k + 1, off, src =>
    if src = [] then pure off
    else do
      let addr ← bmap ip (off / bsize)
      let x ← getInode ip
      let bp ← bufcacheRead x.dev addr
      let data ← bufData bp
      let m := min src.length (bsize - off % bsize)
      setBufData bp (data.splice (off % bsize) (src.take m))
      logWrite bp
      bufcacheRelease bp
      inodeWriteLoop ip k (off + m) (src.drop m)

/-- `inode_write` of the bytes `src`: their number, or `none` for `-1`. -/
def inodeWrite (ip : ℕ) (src : Bytes) (off : ℕ) : FsM (Option ℕ) := do
  let x ← getInode ip
  if x.d.type = tDev then
    if ndev ≤ x.d.major then pure none else kernPanic "devsw"
  else if x.d.size < off ∨ (off + src.length) % 2 ^ 32 < off then pure none
  else if maxfile * bsize < off + src.length then pure none
  else do
    let off ← inodeWriteLoop ip src.length off src
    let x ← getInode ip
    Prog.when (0 < src.length ∧ x.d.size < off) do
      modifyInode ip fun d => { d with size := off }
      inodeUpdate ip
    pure (some src.length)

end Fs

end Mcertikos
