/-
Open files and the system calls (`fs/file.c`, `fs/sysfile.c`).

A call gets what it finds in its registers and in user memory as arguments and returns
what it leaves in the registers.

* `Call`, `Call.prog` — the file-system calls and their programs;
* `bootKmem`, `boot_run` — kernel memory after `tcb_init_at_id` has run for every process.

Design notes: a path argument is the buffer that `pt_copyin` has filled; the calls use at
most 127 bytes of it, up to the first NUL.  `sys_read` returns the bytes that it passes to
`pt_copyout`, and `sys_write` gets the bytes that `pt_copyin` has brought.
-/
import Mcertikos.Fs.Path

namespace Mcertikos

namespace Fs

/-! ### Open files -/

/-- `file_alloc`. -/
def fileAlloc : FsM (Option ℕ) :=
  critical fun k =>
    match (List.range nfile).find? fun f => (k.file f).ref = 0 with
    | some f => .ok (some f, k.setFile f { k.file f with ref := 1 })
    | none => .ok (none, k)

/-- The section of `file_close`: the file as it was if this was the last reference. -/
def Kmem.fileClose (k : Kmem) (f : ℕ) : Except Stop (Option File × Kmem) :=
  if (k.file f).ref < 1 then .error (.panic "file_close")
  else if 0 < (k.file f).ref - 1 then
    .ok (none, k.setFile f { k.file f with ref := (k.file f).ref - 1 })
  else .ok (some (k.file f), k.setFile f { k.file f with ref := 0, type := .none })

/-- `inode_put(ff.ip)`. -/
def putFileInode (ff : File) : FsM PUnit :=
  match ff.ip with
  | some ip => inodePut ip
  | none => kernPanic "inode_put"

def fileClose (f : ℕ) : FsM PUnit := do
  let last ← critical fun k => k.fileClose f
  match last with
  | none => pure ⟨⟩
  | some ff => Prog.when (ff.type = .inode) do
    beginTrans
    putFileInode ff
    commitTrans

/-- `struct file_stat`. -/
structure FileStat where
  type : ℕ
  dev : ℕ
  ino : ℕ
  nlink : ℕ
  size : ℕ

/-- `inode_lock(f->ip)`: the inode, locked. -/
def lockFile (f : ℕ) : FsM ℕ := do
  let x ← getFile f
  match x.ip with
  | some ip => do
    inodeLock ip
    pure ip
  | none => kernPanic "inode_lock"

def fileStat (f : ℕ) : FsM (Option FileStat) := do
  let x ← getFile f
  if x.type = .inode then do
    let ip ← lockFile f
    let i ← getInode ip
    inodeUnlock ip
    pure (some ⟨i.d.type, i.dev, i.inum, i.d.nlink, i.d.size⟩)
  else pure none

/-- `if (r > 0) f->off += r`. -/
def advance (f r : ℕ) : FsM PUnit :=
  Prog.when (0 < r) (modifyFile f fun x => { x with off := (x.off + r) % 2 ^ 32 })

/-- `file_read`: the bytes read, or `none` for `-1`. -/
def fileRead (f n : ℕ) : FsM (Option Bytes) := do
  let x ← getFile f
  if x.readable = false then pure none
  else if x.type = .inode then do
    let ip ← lockFile f
    let x ← getFile f
    let r ← inodeRead ip x.off n
    match r with
    | some bytes => do
      advance f bytes.length
      inodeUnlock ip
      pure (some bytes)
    | none => do
      inodeUnlock ip
      pure none
  else kernPanic "file_read"

/-- The largest piece that `file_write` writes in one transaction. -/
def writeMax : ℕ := (logsize - 1 - 1 - 2) / 2 * 512

/-- One round of the loop of `file_write`. -/
def fileWriteChunk (f : ℕ) (chunk : Bytes) : FsM (Option ℕ) := do
  beginTrans
  let ip ← lockFile f
  let x ← getFile f
  let r ← inodeWrite ip chunk x.off
  advance f (r.getD 0)
  inodeUnlock ip
  commitTrans
  pure r

/-- The loop of `file_write`: whether everything has been written. -/
def fileWriteLoop (f : ℕ) : ℕ → Bytes → FsM Bool
  | 0, src => pure (src = [])
  | k + 1, src =>
    if src = [] then pure true
    else do
      let chunk := src.take writeMax
      let r ← fileWriteChunk f chunk
      match r with
      | none => pure false
      | some n =>
        if n = chunk.length then fileWriteLoop f k (src.drop n)
        else kernPanic "short file_write"

/-- `file_write`: the number of bytes, or `none` for `-1`. -/
def fileWrite (f : ℕ) (src : Bytes) : FsM (Option ℕ) := do
  let x ← getFile f
  if x.writable = false then pure none
  else if x.type = .inode then do
    let all ← fileWriteLoop f src.length src
    pure (if all then some src.length else none)
  else kernPanic "file_write"

/-! ### System calls -/

/-- The error numbers of the file-system calls. -/
inductive Errno where
  | succ
  | invalAddr
  | diskOp
  | nexist
  | create
  | badf
  deriving DecidableEq

/-- What a call leaves: `errno`, the first return value if it sets one, and the bytes that
`sys_read` copies out. -/
structure Ret where
  errno : Errno
  retval1 : Option ℤ := none
  data : Bytes := []

/-- `O_WRONLY`. -/
def oWronly : ℕ := 0x001

/-- `O_RDWR`. -/
def oRdwr : ℕ := 0x002

/-- `O_CREATE`. -/
def oCreate : ℕ := 0x200

/-- `VM_USERLO`. -/
def vmUserlo : ℕ := 0x40000000

/-- `VM_USERHI`. -/
def vmUserhi : ℕ := 0xf0000000

/-- `sizeof(kern_buf)`. -/
def kernBufSize : ℕ := 10000

/-- The path a call works on, from the buffer `pt_copyin` has filled. -/
def pathArg (buf : Bytes) : Bytes := cString (buf.take 127)

/-- `fdalloc`. -/
def fdalloc (pid f : ℕ) : FsM (Option ℕ) :=
  critical fun k =>
    match (List.range nofile).find? fun fd => k.openfiles pid fd = none with
    | some fd => .ok (some fd, k.setOpenfiles pid fd (some f))
    | none => .ok (none, k)

/-- `spinlock_acquire(&buf_lock)`. -/
def acquireBufLock : FsM PUnit :=
  critical fun k => if k.bufLock then .error .asleep else .ok (⟨⟩, { k with bufLock := true })

/-- `spinlock_release(&buf_lock)`. -/
def releaseBufLock : FsM PUnit := modifyMem fun k => { k with bufLock := false }

/-- The file behind a descriptor, with the test of `sys_read` and `sys_write`. -/
def descriptor (pid fd : ℕ) : FsM (Option ℕ) := do
  let fp ← readMem (·.openfiles pid fd)
  match fp with
  | none => pure none
  | some f => do
    let x ← getFile f
    pure (if x.ip = none then none else some f)

/-- The test of `sys_read` and `sys_write` on the user buffer. -/
def badUserBuf (userBuf n : ℕ) : Prop :=
  userBuf < vmUserlo ∨ vmUserhi < (userBuf + n) % 2 ^ 32 ∨ kernBufSize < n

instance (userBuf n : ℕ) : Decidable (badUserBuf userBuf n) := by
  unfold badUserBuf
  infer_instance

/-- `sys_read` with `buf_lock` held. -/
def sysReadLocked (pid fd userBuf n : ℕ) : FsM Ret := do
  if nofile ≤ fd then pure { errno := .badf, retval1 := some (-1) }
  else if badUserBuf userBuf n then pure { errno := .invalAddr, retval1 := some (-1) }
  else do
    let fp ← descriptor pid fd
    match fp with
    | none => pure { errno := .badf, retval1 := some (-1) }
    | some f => do
      let r ← fileRead f n
      match r with
      | some bytes => pure { errno := .succ, retval1 := some bytes.length, data := bytes }
      | none => pure { errno := .succ, retval1 := some (-1) }

def sysRead (pid fd userBuf n : ℕ) : FsM Ret := do
  acquireBufLock
  let ret ← sysReadLocked pid fd userBuf n
  releaseBufLock
  pure ret

/-- `sys_write` with `buf_lock` held. -/
def sysWriteLocked (pid fd userBuf : ℕ) (src : Bytes) : FsM Ret := do
  if nofile ≤ fd then pure { errno := .badf, retval1 := some (-1) }
  else if badUserBuf userBuf src.length then pure { errno := .invalAddr, retval1 := some (-1) }
  else do
    let fp ← descriptor pid fd
    match fp with
    | none => pure { errno := .badf, retval1 := some (-1) }
    | some f => do
      let r ← fileWrite f src
      match r with
      | some n => pure { errno := .succ, retval1 := some n }
      | none => pure { errno := .succ, retval1 := some (-1) }

def sysWrite (pid fd userBuf : ℕ) (src : Bytes) : FsM Ret := do
  acquireBufLock
  let ret ← sysWriteLocked pid fd userBuf src
  releaseBufLock
  pure ret

def sysClose (pid fd : ℕ) : FsM Ret := do
  if nofile ≤ fd then pure { errno := .badf, retval1 := some (-1) }
  else do
    let fp ← readMem (·.openfiles pid fd)
    match fp with
    | none => pure { errno := .badf, retval1 := some (-1) }
    | some f => do
      fileClose f
      modifyMem fun k => k.setOpenfiles pid fd none
      pure { errno := .succ, retval1 := some 0 }

/-- `sys_fstat`; what `file_stat` finds stays in the kernel. -/
def sysFstat (pid fd userStp : ℕ) : FsM Ret := do
  if nofile ≤ fd ∨ userStp < vmUserlo ∨ vmUserhi < (userStp + 20) % 2 ^ 32 then
    pure { errno := .badf, retval1 := some (-1) }
  else do
    let fp ← readMem (·.openfiles pid fd)
    match fp with
    | none => pure { errno := .badf, retval1 := some (-1) }
    | some f => do
      let st ← fileStat f
      match st with
      | some _ => pure { errno := .succ, retval1 := some 0 }
      | none => pure { errno := .badf, retval1 := some (-1) }

/-- `ip->nlink++`. -/
def nlinkInc (ip : ℕ) : FsM PUnit := modifyInode ip fun d => { d with nlink := (d.nlink + 1) % 2 ^ 16 }

/-- `ip->nlink--`. -/
def nlinkDec (ip : ℕ) : FsM PUnit :=
  modifyInode ip fun d => { d with nlink := (d.nlink + 2 ^ 16 - 1) % 2 ^ 16 }

/-- The label `bad` of `sys_link`. -/
def sysLinkBad (ip : ℕ) : FsM Ret := do
  inodeLock ip
  nlinkDec ip
  inodeUpdate ip
  inodeUnlockput ip
  commitTrans
  pure { errno := .diskOp }

def sysLink (pid : ℕ) (old new : Bytes) : FsM Ret := do
  let found ← namei pid (pathArg old)
  match found with
  | none => pure { errno := .nexist }
  | some ip => do
    beginTrans
    inodeLock ip
    let x ← getInode ip
    if x.d.type = tDir then do
      inodeUnlockput ip
      commitTrans
      pure { errno := .diskOp }
    else do
      nlinkInc ip
      inodeUpdate ip
      inodeUnlock ip
      let parent ← nameiparent pid (pathArg new)
      match parent with
      | none => sysLinkBad ip
      | some (dp, name) => do
        inodeLock dp
        let d ← getInode dp
        let i ← getInode ip
        let linked ← (if d.dev ≠ i.dev then pure false else dirLink dp name i.inum)
        inodeUnlockput dp
        if linked then do
          inodePut ip
          commitTrans
          pure { errno := .succ }
        else sysLinkBad ip

/-- The loop of `isdirempty` from `off` on. -/
def isdiremptyFrom (dp : ℕ) : ℕ → ℕ → FsM Bool
  | 0, _ => diverge
  | k + 1, off => do
    let x ← getInode dp
    if off < x.d.size then do
      let de ← readDirent dp off "isdirempty: readi"
      if de.inum ≠ 0 then pure false else isdiremptyFrom dp k (off + direntSize)
    else pure true

def isdirempty (dp : ℕ) : FsM Bool := do
  let x ← getInode dp
  isdiremptyFrom dp (x.d.size / direntSize + 2) (2 * direntSize)

/-- The label `bad` of `sys_unlink`. -/
def sysUnlinkBad (dp : ℕ) : FsM Ret := do
  inodeUnlockput dp
  commitTrans
  pure { errno := .diskOp }

/-- `sys_unlink` once the entry at `off` of `dp` is to be removed; both inodes are locked. -/
def sysUnlinkEntry (dp ip off : ℕ) : FsM Ret := do
  let r ← inodeWrite dp (List.replicate direntSize 0) off
  if r ≠ some direntSize then kernPanic "unlink: writei"
  else do
    let x ← getInode ip
    Prog.when (x.d.type = tDir) do
      nlinkDec dp
      inodeUpdate dp
    inodeUnlockput dp
    nlinkDec ip
    inodeUpdate ip
    inodeUnlockput ip
    commitTrans
    pure { errno := .succ }

def sysUnlink (pid : ℕ) (buf : Bytes) : FsM Ret := do
  let parent ← nameiparent pid (pathArg buf)
  match parent with
  | none => pure { errno := .diskOp }
  | some (dp, name) => do
    beginTrans
    inodeLock dp
    if dirNamecmp name dot = 0 ∨ dirNamecmp name dotdot = 0 then sysUnlinkBad dp
    else do
      let found ← dirLookup dp name
      match found with
      | none => sysUnlinkBad dp
      | some (ip, off) => do
        inodeLock ip
        let x ← getInode ip
        -- `ip->nlink < 1`, as a signed 16-bit number
        if x.d.nlink = 0 ∨ 2 ^ 15 ≤ x.d.nlink then kernPanic "unlink: nlink < 1"
        else do
          let empty ← (if x.d.type = tDir then isdirempty ip else pure true)
          if empty then sysUnlinkEntry dp ip off
          else do
            inodeUnlockput ip
            sysUnlinkBad dp

/-- The entries `.` and `..` of a new directory `ip` in `dp`. -/
def createDots (dp ip inum : ℕ) : FsM PUnit := do
  nlinkInc dp
  inodeUpdate dp
  let one ← dirLink ip dot inum
  Prog.when (one = false) (kernPanic "create dots")
  let d ← getInode dp
  let two ← dirLink ip dotdot d.inum
  Prog.when (two = false) (kernPanic "create dots")

/-- `create`: the inode, locked, with a reference. -/
def create (pid : ℕ) (path : Bytes) (type major minor : ℕ) : FsM (Option ℕ) := do
  let parent ← nameiparent pid path
  match parent with
  | none => pure none
  | some (dp, name) => do
    inodeLock dp
    let found ← dirLookup dp name
    match found with
    | some (ip, _) => do
      inodeUnlockput dp
      inodeLock ip
      let x ← getInode ip
      if type = tFile ∧ x.d.type = tFile then pure (some ip)
      else do
        inodeUnlockput ip
        pure none
    | none => do
      let d ← getInode dp
      let ip ← inodeAlloc d.dev type
      inodeLock ip
      modifyInode ip fun d => { d with major := major, minor := minor, nlink := 1 }
      inodeUpdate ip
      let i ← getInode ip
      Prog.when (type = tDir) (createDots dp ip i.inum)
      let linked ← dirLink dp name i.inum
      Prog.when (linked = false) (kernPanic "create: dir_link")
      inodeUnlockput dp
      pure (some ip)

/-- `sys_open` with the inode found or created, and locked. -/
def sysOpenInode (pid ip omode : ℕ) : FsM Ret := do
  let f ← fileAlloc
  match f with
  | none => do
    inodeUnlockput ip
    pure { errno := .diskOp, retval1 := some (-1) }
  | some f => do
    let fd ← fdalloc pid f
    match fd with
    | none => do
      fileClose f
      inodeUnlockput ip
      pure { errno := .diskOp, retval1 := some (-1) }
    | some fd => do
      inodeUnlock ip
      modifyFile f fun x => { x with
        type := .inode
        ip := some ip
        off := 0
        readable := omode &&& oWronly = 0
        writable := omode &&& oWronly ≠ 0 ∨ omode &&& oRdwr ≠ 0 }
      pure { errno := .succ, retval1 := some fd }

/-- The first use of `sys_open`. -/
def sysOpenFirst : FsM PUnit := do
  let first ← readMem (·.first)
  Prog.when (first = true) do
    modifyMem fun k => { k with first := false }
    logInit

/-- `sys_open` after the test of `first`. -/
def sysOpenPath (pid : ℕ) (buf : Bytes) (omode : ℕ) : FsM Ret := do
  if omode &&& oCreate ≠ 0 then do
    beginTrans
    let found ← create pid (pathArg buf) tFile 0 0
    commitTrans
    match found with
    | none => pure { errno := .create, retval1 := some (-1) }
    | some ip => sysOpenInode pid ip omode
  else do
    let found ← namei pid (pathArg buf)
    match found with
    | none => pure { errno := .nexist, retval1 := some (-1) }
    | some ip => do
      inodeLock ip
      let x ← getInode ip
      if x.d.type = tDir ∧ omode ≠ 0 then do
        inodeUnlockput ip
        pure { errno := .diskOp, retval1 := some (-1) }
      else sysOpenInode pid ip omode

def sysOpen (pid : ℕ) (buf : Bytes) (omode : ℕ) : FsM Ret := do
  sysOpenFirst
  sysOpenPath pid buf omode

def sysMkdir (pid : ℕ) (buf : Bytes) : FsM Ret := do
  beginTrans
  let made ← create pid (pathArg buf) tDir 0 0
  match made with
  | none => do
    commitTrans
    pure { errno := .diskOp }
  | some ip => do
    inodeUnlockput ip
    commitTrans
    pure { errno := .succ }

def sysChdir (pid : ℕ) (buf : Bytes) : FsM Ret := do
  let found ← namei pid (pathArg buf)
  match found with
  | none => pure { errno := .diskOp }
  | some ip => do
    inodeLock ip
    let x ← getInode ip
    if x.d.type ≠ tDir then do
      inodeUnlockput ip
      pure { errno := .diskOp }
    else do
      inodeUnlock ip
      let cwd ← readMem (·.cwd pid)
      inodePut cwd
      modifyMem fun k => k.setCwd pid ip
      pure { errno := .succ }

/-- The file-system calls, with their arguments. -/
inductive Call where
  | open (path : Bytes) (omode : ℕ)
  | close (fd : ℕ)
  | read (fd userBuf n : ℕ)
  | write (fd userBuf : ℕ) (src : Bytes)
  | mkdir (path : Bytes)
  | chdir (path : Bytes)
  | link (old new : Bytes)
  | unlink (path : Bytes)
  | fstat (fd userStp : ℕ)

def Call.prog (pid : ℕ) : Call → FsM Ret
  | .open path omode => sysOpen pid path omode
  | .close fd => sysClose pid fd
  | .read fd userBuf n => sysRead pid fd userBuf n
  | .write fd userBuf src => sysWrite pid fd userBuf src
  | .mkdir path => sysMkdir pid path
  | .chdir path => sysChdir pid path
  | .link old new => sysLink pid old new
  | .unlink path => sysUnlink pid path
  | .fstat fd userStp => sysFstat pid fd userStp

/-! ### Boot -/

/-- The file-system part of `tcb_init_at_id`. -/
def tcbInitAtId (pid : ℕ) : FsM PUnit := do
  let root ← namei pid [slash]
  match root with
  | some ip => modifyMem fun k => k.setCwd pid ip
  | none => pure ⟨⟩

/-- Kernel memory when `n` processes have got the root as working directory. -/
def rootKmem (n : ℕ) : Kmem :=
  if n = 0 then Kmem.zero
  else Kmem.zero.setInode 0 ⟨rootdev, rootino, n, false, false, Dinode.zero⟩

/-- Kernel memory after boot. -/
def bootKmem : Kmem := rootKmem numIds

theorem inodeGet_rootKmem (n : ℕ) :
    (rootKmem n).inodeGet rootdev rootino = .ok (0, rootKmem (n + 1)) := by
  cases n with
  | zero =>
    have hfirst : (Kmem.zero.inodeGet rootdev rootino) =
        .ok (0, Kmem.zero.setInode 0 ⟨rootdev, rootino, 1, false, false, Dinode.zero⟩) := rfl
    exact hfirst
  | succ n =>
    have hrange : List.range ninode = 0 :: (List.range 49).map Nat.succ := List.range_succ_eq_map
    have hslot : (rootKmem (n + 1)).inode 0 = ⟨rootdev, rootino, n + 1, false, false, Dinode.zero⟩ :=
      Kmem.setInode_self _ _ _
    have htwice : (rootKmem (n + 1)).setInode 0 ⟨rootdev, rootino, n + 1 + 1, false, false,
        Dinode.zero⟩ = rootKmem (n + 1 + 1) := by
      unfold rootKmem Kmem.setInode
      simp
    unfold Kmem.inodeGet
    rw [hrange, List.find?_cons_of_pos (by simp [hslot])]
    dsimp only
    rw [hslot]
    exact congrArg (fun k => Except.ok (0, k)) htwice

/-- `tcb_init_at_id` gives one more process the root as working directory. -/
theorem tcbInitAtId_run (s : FsSys) (n pid : ℕ) :
    exec (tcbInitAtId pid) { s with k := rootKmem n } = .ok ⟨⟩ { s with k := rootKmem (n + 1) } := by
  have hcwd : (rootKmem (n + 1)).setCwd pid 0 = rootKmem (n + 1) := by
    have : (rootKmem (n + 1)).cwd = fun _ => 0 := rfl
    unfold Kmem.setCwd
    rw [this, show Function.update (fun _ => 0) pid 0 = fun _ : ℕ => 0 from
      Function.update_eq_self pid _]
    rfl
  have hget : handler ℕ (.mem fun k => k.inodeGet rootdev rootino) { s with k := rootKmem n } =
      .ok 0 { s with k := rootKmem (n + 1) } := by
    dsimp only [handler]
    rw [inodeGet_rootKmem]
  have hrest : exec (tcbInitAtId pid) { s with k := rootKmem n } =
      .ok ⟨⟩ { s with k := (rootKmem (n + 1)).setCwd pid 0 } := by
    show EStateM.bind (handler ℕ _) _ _ = _
    unfold EStateM.bind
    rw [hget]
    rfl
  rw [hrest, hcwd]

/-- **Boot**: `tcb_init_at_id` for all processes leaves `bootKmem`. -/
theorem boot_run (s : FsSys) : exec (Prog.forRange tcbInitAtId numIds 0) { s with k := Kmem.zero } =
      .ok ⟨⟩ { s with k := bootKmem } := by
  have hloop : ∀ m n, exec (Prog.forRange tcbInitAtId m n) { s with k := rootKmem n } =
      .ok ⟨⟩ { s with k := rootKmem (n + m) } := by
    intro m
    induction m with
    | zero => exact fun n => rfl
    | succ m ih =>
      intro n
      have hstep := Prog.exec_bind_ok (f := fun _ => Prog.forRange tcbInitAtId m (n + 1))
        (tcbInitAtId_run s n n)
      rw [show n + (m + 1) = n + 1 + m by omega, ← ih (n + 1)]
      exact hstep
  have := hloop numIds 0
  rwa [Nat.zero_add] at this

end Fs

end Mcertikos
