/-
The file system's kernel memory, and the operations its programs perform.

The functions of the file system are programs (`Prog`) over `FsOp`: uses of the buffer
cache and the log, and critical sections on the inode cache, the file table and the TCBs.
An operation is one uninterrupted section of the source, so that the same text can be run
by one process alone (`exec`) or by many.

Design notes: pointers into the inode cache, the file table and the buffer cache are
indices.  `note` does nothing; it marks the points of the source that statements about
runs refer to.  The machine behind the operations is the one of `Fs.Log`.
-/
import Mcertikos.Fs.Layout
import Mcertikos.Fs.Log
import Mcertikos.Lib.Prog

namespace Mcertikos

open Function

namespace Fs

/-! ### Kernel memory -/

/-- `NINODE`. -/
def ninode : ℕ := 50

/-- `NFILE`. -/
def nfile : ℕ := 100

/-- `NOFILE`. -/
def nofile : ℕ := 16

/-- `NDEV`. -/
def ndev : ℕ := 10

/-- `NUM_IDS`. -/
def numIds : ℕ := 64

/-- `struct inode`; `busy` and `valid` are the flags `I_BUSY` and `I_VALID`, `d` holds the
copy of the disk inode. -/
structure Inode where
  dev : ℕ
  inum : ℕ
  ref : ℕ
  busy : Bool
  valid : Bool
  d : Dinode

/-- The types of a `struct file`. -/
inductive FdType where
  | none
  | pipe
  | inode
  deriving DecidableEq

/-- `struct file`. -/
structure File where
  type : FdType
  ref : ℕ
  readable : Bool
  writable : Bool
  ip : Option ℕ
  off : ℕ

/-- `inode_cache`, `ftable`, the file-system part of `TCBPool`, the variable `first` of
`sys_open`, and `buf_lock`. -/
structure Kmem where
  inode : ℕ → Inode
  file : ℕ → File
  openfiles : ℕ → ℕ → Option ℕ
  cwd : ℕ → ℕ
  first : Bool
  bufLock : Bool

namespace Kmem

def setInode (k : Kmem) (ip : ℕ) (x : Inode) : Kmem :=
  { k with inode := update k.inode ip x }

def setDinode (k : Kmem) (ip : ℕ) (d : Dinode) : Kmem :=
  k.setInode ip { k.inode ip with d := d }

def setFile (k : Kmem) (f : ℕ) (x : File) : Kmem := { k with file := update k.file f x }

/-- `tcb_set_openfiles`. -/
def setOpenfiles (k : Kmem) (pid fd : ℕ) (f : Option ℕ) : Kmem :=
  { k with openfiles := update k.openfiles pid (update (k.openfiles pid) fd f) }

/-- `tcb_set_cwd`. -/
def setCwd (k : Kmem) (pid ip : ℕ) : Kmem := { k with cwd := update k.cwd pid ip }

@[simp] theorem setInode_self (k : Kmem) (ip : ℕ) (x : Inode) : (k.setInode ip x).inode ip = x := by
  simp [setInode]

theorem setInode_other (k : Kmem) {ip i : ℕ} (x : Inode) (h : i ≠ ip) :
    (k.setInode ip x).inode i = k.inode i := by simp [setInode, h]

/-- Static data before anything has run. -/
def zero : Kmem where
  inode := fun _ => ⟨0, 0, 0, false, false, Dinode.zero⟩
  file := fun _ => ⟨.none, 0, false, false, none, 0⟩
  openfiles := fun _ _ => none
  cwd := fun _ => 0
  first := true
  bufLock := false

end Kmem

/-! ### Operations -/

/-- Points of the source that statements about runs refer to: `inode_put` begins to free
an inode, `block_alloc` begins, and `block_alloc` has found no block outside the log. -/
inductive Event where
  | frees
  | allocates
  | exhausts
  deriving DecidableEq

/-- The operations of file-system programs. -/
inductive FsOp : Type → Type 1 where
  | bread (dev sector : ℕ) : FsOp ℕ
  | data (b : ℕ) : FsOp Block
  | setData (b : ℕ) (data : Block) : FsOp PUnit
  | logWrite (b : ℕ) : FsOp PUnit
  | brelse (b : ℕ) : FsOp PUnit
  | beginTrans : FsOp PUnit
  | commitTrans : FsOp PUnit
  | logInit : FsOp PUnit
  | mem {β : Type} (f : Kmem → Except Stop (β × Kmem)) : FsOp β
  | junk : FsOp ℕ
  | note (e : Event) : FsOp PUnit

abbrev FsM := Prog FsOp

def bufcacheRead (dev sector : ℕ) : FsM ℕ := .perform (.bread dev sector)

/-- `bp->data`. -/
def bufData (b : ℕ) : FsM Block := .perform (.data b)

def setBufData (b : ℕ) (data : Block) : FsM PUnit := .perform (.setData b data)

def logWrite (b : ℕ) : FsM PUnit := .perform (.logWrite b)

def bufcacheRelease (b : ℕ) : FsM PUnit := .perform (.brelse b)

def beginTrans : FsM PUnit := .perform .beginTrans

def commitTrans : FsM PUnit := .perform .commitTrans

def logInit : FsM PUnit := .perform .logInit

def note (e : Event) : FsM PUnit := .perform (.note e)

/-- The value of a function that falls off its end. -/
def junk : FsM ℕ := .perform .junk

/-- A critical section on kernel memory. -/
def critical {β : Type} (f : Kmem → Except Stop (β × Kmem)) : FsM β := .perform (.mem f)

def readMem {β : Type} (g : Kmem → β) : FsM β := .perform (.mem fun k => .ok (g k, k))

def modifyMem (g : Kmem → Kmem) : FsM PUnit := .perform (.mem fun k => .ok (⟨⟩, g k))

/-- `KERN_PANIC`. -/
def kernPanic {β : Type} (msg : String) : FsM β := .perform (.mem fun _ => .error (.panic msg))

/-- A loop of the model that has run out of rounds. -/
def diverge {β : Type} : FsM β := .perform (.mem fun _ => .error .diverge)

/-- `*ip`. -/
def getInode (ip : ℕ) : FsM Inode := readMem (·.inode ip)

/-- An assignment to the part of `*ip` that is copied from disk. -/
def modifyInode (ip : ℕ) (g : Dinode → Dinode) : FsM PUnit :=
  modifyMem fun k => k.setDinode ip (g (k.inode ip).d)

/-- `*f`. -/
def getFile (f : ℕ) : FsM File := readMem (·.file f)

def modifyFile (f : ℕ) (g : File → File) : FsM PUnit := modifyMem fun k => k.setFile f (g (k.file f))

/-! ### The machine -/

/-- The whole state: cache, disk and log, kernel memory, the events so far, and the values
that functions without a `return` will give. -/
structure FsSys where
  sys : LogSys
  k : Kmem
  seen : List Event
  junk : ℕ → ℕ

/-- A function of the cache or the log. -/
def onLog {β : Type} (m : LogM β) : EStateM Stop FsSys β := fun s =>
  match m s.sys with
  | .ok b sys' => .ok b { s with sys := sys' }
  | .error e sys' => .error e { s with sys := sys' }

/-- What the operations do. -/
def handler (β : Type) : FsOp β → EStateM Stop FsSys β
  | .bread dev sector => onLog (Mcertikos.bufcacheRead true dev sector)
  | .data b => fun s => .ok (s.sys.c.buf b).data s
  | .setData b data => fun s => .ok ⟨⟩ { s with sys := s.sys.setData b data }
  | .logWrite b => onLog (Mcertikos.logWrite true b)
  | .brelse b => onLog (Mcertikos.bufcacheRelease b)
  | .beginTrans => onLog Mcertikos.beginTrans
  | .commitTrans => onLog (Mcertikos.commitTrans true)
  | .logInit => onLog (Mcertikos.logInit true)
  | .mem f => fun s =>
    match f s.k with
    | .ok (b, k') => .ok b { s with k := k' }
    | .error e => .error e s
  | .junk => fun s => .ok (s.junk 0) { s with junk := fun n => s.junk (n + 1) }
  | .note e => fun s => .ok ⟨⟩ { s with seen := e :: s.seen }

theorem onLog_ok {β : Type} {m : LogM β} {s s' : FsSys} {b : β} (h : onLog m s = .ok b s') :
    m s.sys = .ok b s'.sys ∧ s'.k = s.k := by
  unfold onLog at h
  cases hm : m s.sys with
  | ok b' sys' =>
    rw [hm] at h
    cases h
    exact ⟨rfl, rfl⟩
  | error e sys' =>
    rw [hm] at h
    cases h

theorem handler_mem {β : Type} {f : Kmem → Except Stop (β × Kmem)} {s s' : FsSys} {b : β}
    (h : handler β (.mem f) s = .ok b s') : ∃ k', f s.k = .ok (b, k') ∧ s' = { s with k := k' } := by
  dsimp only [handler] at h
  cases hf : f s.k with
  | error e =>
    rw [hf] at h
    cases h
  | ok p =>
    rw [hf] at h
    cases h
    exact ⟨_, rfl, rfl⟩

/-- A program run by one process alone. -/
def exec {α : Type} (m : FsM α) : EStateM Stop FsSys α := Prog.exec handler m

end Fs

end Mcertikos
