/-
Directories and path names (`fs/dir.c`, `fs/path.c`).
-/
import Mcertikos.Fs.Inode

namespace Mcertikos

namespace Fs

/-! ### Directories -/

/-- `inode_read` of one directory entry, with the caller's panic if it is short. -/
def readDirent (dp off : ℕ) (msg : String) : FsM Dirent := do
  let r ← inodeRead dp off direntSize
  match r with
  | some bytes =>
    if bytes.length = direntSize then pure (Dirent.load bytes) else kernPanic msg
  | none => kernPanic msg

/-- The loop of `dir_lookup` from `off` on. -/
def dirLookupFrom (dp : ℕ) (name : Bytes) : ℕ → ℕ → FsM (Option (ℕ × ℕ))
  | 0, _ => diverge
  | k + 1, off => do
    let x ← getInode dp
    if off < x.d.size then do
      let de ← readDirent dp off "wrong in dir_lookup"
      if de.inum = 0 then dirLookupFrom dp name k (off + direntSize)
      else if dirNamecmp de.name name = 0 then do
        let ip ← inodeGet x.dev de.inum
        pure (some (ip, off))
      else dirLookupFrom dp name k (off + direntSize)
    else pure none

/-- `dir_lookup`: the inode, with a reference, and the offset of its entry. -/
def dirLookup (dp : ℕ) (name : Bytes) : FsM (Option (ℕ × ℕ)) := do
  let x ← getInode dp
  if x.d.type ≠ tDir then kernPanic "dir_lookup not DIR"
  else dirLookupFrom dp name (x.d.size / direntSize + 2) 0

/-- The loop of `dir_link`: the offset of the first free entry, or the end. -/
def dirFreeFrom (dp : ℕ) : ℕ → ℕ → FsM ℕ
  | 0, _ => diverge
  | k + 1, off => do
    let x ← getInode dp
    if off < x.d.size then do
      let de ← readDirent dp off "entry size read is not correct, dir_link"
      if de.inum = 0 then pure off else dirFreeFrom dp k (off + direntSize)
    else pure off

/-- `dir_link`: `false` for `-1`. -/
def dirLink (dp : ℕ) (name : Bytes) (inum : ℕ) : FsM Bool := do
  let found ← dirLookup dp name
  match found with
  | some (pinode, _) => do
    inodePut pinode
    pure false
  | none => do
    let x ← getInode dp
    let off ← dirFreeFrom dp (x.d.size / direntSize + 2) 0
    let r ← inodeWrite dp (Dirent.bytes ⟨inum % 2 ^ 16, strncpy dirsiz name⟩) off
    if r = some direntSize then pure true
    else kernPanic "entry size write is not corrent, dir_link"

/-! ### Paths -/

/-- `skipelem`: the next element of the path, cut to `DIRSIZ - 1` bytes, and the rest. -/
def skipelem (path : Bytes) : Option (Bytes × Bytes) :=
  let start := path.dropWhile (· = slash)
  if start = [] then none
  else some ((start.takeWhile (· ≠ slash)).take (dirsiz - 1),
    (start.dropWhile (· ≠ slash)).dropWhile (· = slash))

/-- The loop of `namex`, at `ip` with `path` to go. -/
def namexFrom (nameiparent : Bool) : ℕ → ℕ → Bytes → Bytes → FsM (Option (ℕ × Bytes))
  | 0, _, _, _ => diverge
  | k + 1, ip, path, name =>
    match skipelem path with
    | none =>
      if nameiparent then do
        inodePut ip
        pure none
      else pure (some (ip, name))
    | some (name, path) => do
      inodeLock ip
      let x ← getInode ip
      if x.d.type ≠ tDir then do
        inodeUnlockput ip
        pure none
      else if nameiparent = true ∧ path = [] then do
        inodeUnlock ip
        pure (some (ip, name))
      else do
        let subdir ← dirLookup ip name
        inodeUnlockput ip
        match subdir with
        | none => pure none
        | some (sub, _) => namexFrom nameiparent k sub path name

/-- The inode where `namex` starts, with a reference. -/
def namexStart (pid : ℕ) (path : Bytes) : FsM ℕ :=
  if path.head? = some slash then inodeGet rootdev rootino
  else do
    let ip ← readMem (·.cwd pid)
    inodeDup ip
    pure ip

/-- `namex` for process `pid`: the inode, with a reference, and the last element. -/
def namex (pid : ℕ) (path : Bytes) (nameiparent : Bool) : FsM (Option (ℕ × Bytes)) := do
  let ip ← namexStart pid path
  namexFrom nameiparent (path.length + 1) ip path []

def namei (pid : ℕ) (path : Bytes) : FsM (Option ℕ) := do
  let r ← namex pid path false
  pure (r.map Prod.fst)

def nameiparent (pid : ℕ) (path : Bytes) : FsM (Option (ℕ × Bytes)) := namex pid path true

end Fs

end Mcertikos
