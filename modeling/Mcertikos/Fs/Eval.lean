/-
Evaluating runs of the file system.

`forceSys` and `forceAll` compute the parts of a state that the next operations look at,
so that concrete runs can be evaluated; they change nothing (`forceSys_eq`, `forceAll_eq`).
`oneFile` is a small disk for such runs.
-/
import Mcertikos.Fs.Kernel
import Mcertikos.Lib.Force

namespace Mcertikos

namespace Fs

variable {α : Type*}

def forceBlock (b : Block) (f : Block → α) : α :=
  match b with
  | ⟨m, h⟩ => f ⟨m, h⟩

theorem forceBlock_eq (b : Block) (f : Block → α) : forceBlock b f = f b := rfl

def forceBuf (x : Buf) (f : Buf → α) : α :=
  Force.bool x.busy fun busy => Force.bool x.valid fun valid => Force.bool x.dirty fun dirty =>
    Force.nat x.dev fun dev => Force.nat x.sector fun sector => forceBlock x.data fun data =>
    f ⟨busy, valid, dirty, dev, sector, data⟩

theorem forceBuf_eq (x : Buf) (f : Buf → α) : forceBuf x f = f x := by
  simp only [forceBuf, Force.bool_eq, Force.nat_eq, forceBlock_eq]

def forceCache (c : Bcache) (f : Bcache → α) : α :=
  Force.table forceBuf c.buf nbuf fun buf =>
    Force.table Force.nat c.links.next (nbuf + 1) fun next =>
    Force.table Force.nat c.links.prev (nbuf + 1) fun prev => f ⟨buf, { next := next, prev := prev }⟩

theorem forceCache_eq (c : Bcache) (f : Bcache → α) : forceCache c f = f c := by
  simp only [forceCache, Force.table_eq forceBuf_eq, Force.table_eq Force.nat_eq]

def forceDinode (d : Dinode) (f : Dinode → α) : α :=
  Force.nat d.type fun type => Force.nat d.major fun major => Force.nat d.minor fun minor =>
    Force.nat d.nlink fun nlink => Force.nat d.size fun size =>
    Force.table Force.nat d.addr 13 fun addr => f ⟨type, major, minor, nlink, size, fun j => addr j.val⟩

theorem forceDinode_eq (d : Dinode) (f : Dinode → α) : forceDinode d f = f d := by
  simp only [forceDinode, Force.nat_eq, Force.table_eq Force.nat_eq]
  congr 1
  ext <;> simp [Dinode.addr]

def forceInode (x : Inode) (f : Inode → α) : α :=
  Force.nat x.dev fun dev => Force.nat x.inum fun inum => Force.nat x.ref fun ref =>
    Force.bool x.busy fun busy => Force.bool x.valid fun valid => forceDinode x.d fun d =>
    f ⟨dev, inum, ref, busy, valid, d⟩

theorem forceInode_eq (x : Inode) (f : Inode → α) : forceInode x f = f x := by
  simp only [forceInode, Force.nat_eq, Force.bool_eq, forceDinode_eq]

def forceLog (l : Log) (f : Log → α) : α :=
  Force.nat l.start fun start => Force.nat l.size fun size => Force.bool l.busy fun busy =>
    Force.nat l.dev fun dev => Force.nat l.lh.n fun n =>
    Force.table Force.nat l.lh.sector logsize fun sector => f ⟨start, size, busy, dev, ⟨n, sector⟩⟩

theorem forceLog_eq (l : Log) (f : Log → α) : forceLog l f = f l := by
  simp only [forceLog, Force.nat_eq, Force.bool_eq, Force.table_eq Force.nat_eq]

/-- `f s`, with the buffers and the log of `s` computed first. -/
def forceSys (s : FsSys) (f : FsSys → α) : α :=
  forceCache s.sys.c fun c => forceLog s.sys.log fun log =>
    f { s with sys := { s.sys with c := c, log := log } }

theorem forceSys_eq (s : FsSys) (f : FsSys → α) : forceSys s f = f s := by
  simp only [forceSys, forceCache_eq, forceLog_eq]

/-- The same, with the inode cache computed too. -/
def forceAll (s : FsSys) (f : FsSys → α) : α :=
  forceSys s fun s => Force.table forceInode s.k.inode ninode fun inode =>
    f { s with k := { s.k with inode := inode } }

theorem forceAll_eq (s : FsSys) (f : FsSys → α) : forceAll s f = f s := by
  simp only [forceAll, forceSys_eq, Force.table_eq forceInode_eq]

/-- A program run alone for at most `n` operations. -/
def evalProg {β : Type} : ℕ → FsM β → FsSys → Option (β × FsSys)
  | _, .ret a, s => some (a, s)
  | 0, .step _ _, _ => none
  | n + 1, .step o k, s =>
    match handler _ o s with
    | .ok b s' => forceSys s' fun s' => evalProg n (k b) s'
    | .error _ _ => none

theorem exec_of_evalProg {β : Type} {n : ℕ} {m : FsM β} {s : FsSys} {r : β × FsSys}
    (h : evalProg n m s = some r) : exec m s = .ok r.1 r.2 := by
  induction n generalizing m s with
  | zero =>
    cases m with
    | ret a =>
      cases h
      rfl
    | step o k => cases h
  | succ n ih =>
    cases m with
    | ret a =>
      cases h
      rfl
    | step o k =>
      unfold evalProg at h
      split at h
      · rename_i b s' hop
        rw [forceSys_eq] at h
        exact Hoare.bind_eq_ok.mpr ⟨b, s', hop, ih h⟩
      · cases h

/-- How a program that is run alone fails within `n` operations. -/
def evalStop {β : Type} : ℕ → FsM β → FsSys → Option Stop
  | 0, _, _ => none
  | _ + 1, .ret _, _ => none
  | n + 1, .step o k, s =>
    match handler _ o s with
    | .ok b s' => forceSys s' fun s' => evalStop n (k b) s'
    | .error e _ => some e

theorem exec_of_evalStop {β : Type} {n : ℕ} {m : FsM β} {s : FsSys} {e : Stop}
    (h : evalStop n m s = some e) : ∃ s', exec m s = .error e s' := by
  induction n generalizing m s with
  | zero => cases h
  | succ n ih =>
    cases m with
    | ret a => cases h
    | step o k =>
      unfold evalStop at h
      split at h
      · rename_i b s' hop
        rw [forceSys_eq] at h
        obtain ⟨s'', hrun⟩ := ih h
        refine ⟨s'', ?_⟩
        show EStateM.bind (handler _ o) (fun b => exec (k b)) s = _
        unfold EStateM.bind
        rw [hop]
        exact hrun
      · rename_i e' s' hop
        cases h
        refine ⟨s', ?_⟩
        show EStateM.bind (handler _ o) (fun b => exec (k b)) s = _
        unfold EStateM.bind
        rw [hop]

def isPanic (msg : String) : Stop → Bool
  | .panic m => m = msg
  | _ => false

theorem exec_of_panic {β : Type} {n : ℕ} {m : FsM β} {s : FsSys} {msg : String}
    (h : (evalStop n m s).any (isPanic msg) = true) : ∃ s', exec m s = .error (.panic msg) s' := by
  obtain ⟨e, he, h⟩ := (Option.any_eq_true ..).mp h
  unfold isPanic at h
  split at h
  · rw [of_decide_eq_true h] at he
    exact exec_of_evalStop he
  · cases h

/-! ### A disk -/

/-- The superblock of an image of `mkfs`. -/
def mkfsSuper : Block :=
  (((Block.zeroed.write32 0 1024).write32 4 985).write32 8 200).write32 12 10

/-- An inode with one block. -/
def oneBlockInode (type size addr : ℕ) : Dinode :=
  Dinode.setAddr { Dinode.zero with type := type, nlink := 1, size := size } 0 addr

/-- A block with the given directory entries. -/
def direntBlock (des : List (ℕ × Bytes)) : Block :=
  Block.zeroed.splice 0 (des.flatMap fun de => Dirent.bytes ⟨de.1, strncpy dirsiz de.2⟩)

/-- The image that `mkfs` makes from a file `f` with one byte: the root directory is in
block 29 and the file in block 30. -/
def oneFile : Disk := fun a =>
  if a = lba rootdev 1 then mkfsSuper
  else if a = lba rootdev 2 then
    (Block.zeroed.setDinode 1 (oneBlockInode tDir 512 29)).setDinode 2 (oneBlockInode tFile 1 30)
  else if a = lba rootdev 28 then Block.ofMem fun x => if x < 3 then 255 else if x = 3 then 127 else 0
  else if a = lba rootdev 29 then direntBlock [(1, dot), (1, dotdot), (2, [102])]
  else Block.zeroed

end Fs

end Mcertikos
