/-
Processes in the file system.

Any number of processes make file-system calls; their operations interleave in any
order.  A process that would have to wait takes no step.

* `World.Step` — one process starts a call, performs an operation, or returns;
* `Call.guarded_prog` — outside a transaction, a call can only write by freeing an inode
  in `inode_put` or by allocating a block in `bmap`;
* `log_write_inside` — apart from these two, every `log_write` is inside the transaction
  of its own process;
* `chdir_writes_outside` — `inode_put` does free an inode outside a transaction.
-/
import Mcertikos.Fs.Sysfile
import Mcertikos.Fs.Eval
import Mcertikos.Fs.Recovery

namespace Mcertikos

namespace Fs

open Relation Function Prog Hoare

/-! ### The system -/

/-- A process inside a call: the call, what it has left to do, and whether it is between
its `begin_trans` and its `commit_trans`. -/
structure Proc where
  call : Call
  prog : FsM Ret
  inTrans : Bool

/-- All processes; `recovered` tells whether `log_init` has returned. -/
structure World where
  s : FsSys
  proc : ℕ → Option Proc
  recovered : Bool

/-- Whether a process is in a transaction after an operation. -/
def FsOp.after {β : Type} : FsOp β → Bool → Bool
  | .beginTrans, _ => true
  | .commitTrans, _ => false
  | _, t => t

/-- `inode_put` begins to free an inode, or `block_alloc` begins. -/
def FsOp.changesBlocks {β : Type} : FsOp β → Prop
  | .note e => e ≠ .exhausts
  | _ => False

def FsOp.isLogInit {β : Type} : FsOp β → Bool
  | .logInit => true
  | _ => false

namespace World

/-- Process `pid` has called `c`. -/
def start (x : World) (pid : ℕ) (c : Call) : World :=
  { x with proc := update x.proc pid (some ⟨c, c.prog pid, false⟩) }

/-- Process `pid` has performed `o` in its call `c` and has `rest` left. -/
def did {β : Type} (x : World) (pid : ℕ) (c : Call) (o : FsOp β) (t : Bool) (rest : FsM Ret)
    (s' : FsSys) : World :=
  { x with
    s := s'
    proc := update x.proc pid (some ⟨c, rest, o.after t⟩)
    recovered := x.recovered || o.isLogInit }

/-- Process `pid` is back in user mode. -/
def finish (x : World) (pid : ℕ) : World := { x with proc := update x.proc pid none }

inductive Step : World → World → Prop where
  | call {x : World} {pid : ℕ} (c : Call) (hpid : pid < numIds) (hidle : x.proc pid = none) :
      Step x (x.start pid c)
  | op {x : World} {pid : ℕ} {c : Call} {β : Type} {o : FsOp β} {k : β → FsM Ret} {t : Bool} {b : β}
      {s' : FsSys} (h : x.proc pid = some ⟨c, .step o k, t⟩) (hop : handler β o x.s = .ok b s') :
      Step x (x.did pid c o t (k b) s')
  | ret {x : World} {pid : ℕ} {c : Call} {r : Ret} {t : Bool}
      (h : x.proc pid = some ⟨c, .ret r, t⟩) :
      Step x (x.finish pid)

/-- The system after boot: no call has been made. -/
def boot (disk : Disk) (junk : ℕ → ℕ) : World :=
  ⟨⟨Mcertikos.boot disk, bootKmem, [], junk⟩, fun _ => none, false⟩

end World

/-! ### Writing inside transactions -/

/-- Rules for a process that is in a transaction (`true`) or not: it has to be in one to
write, and may take it as given when it frees an inode or allocates a block. -/
def guarded : Rules FsOp Bool where
  pre := fun {β} o Q t =>
    match β, o, Q with
    | _, .logWrite _, Q => t = true ∧ Q ⟨⟩ t
    | _, .beginTrans, Q => Q ⟨⟩ true
    | _, .commitTrans, Q => t = true ∧ Q ⟨⟩ false
    | _, .note e, Q => (e ≠ .exhausts → t = true) → Q ⟨⟩ t
    | _, .bread _ _, Q => ∀ b, Q b t
    | _, .data _, Q => ∀ b, Q b t
    | _, .setData _ _, Q => Q ⟨⟩ t
    | _, .brelse _, Q => Q ⟨⟩ t
    | _, .logInit, Q => Q ⟨⟩ t
    | _, .mem f, Q => ∀ b k k', f k = .ok (b, k') → Q b t
    | _, .junk, Q => ∀ b, Q b t
  mono := by
    intro β o Q Q' t hQ h
    cases o with
    | logWrite | commitTrans => exact ⟨h.1, hQ _ _ h.2⟩
    | beginTrans | setData | brelse | logInit => exact hQ _ _ h
    | note e => exact fun he => hQ _ _ (h he)
    | bread | data | junk => exact fun b => hQ _ _ (h b)
    | mem f => exact fun b k k' hf => hQ _ _ (h b k k' hf)

/-- `m` follows the rules and neither begins nor ends a transaction. -/
def Stays (t : Bool) {α : Type} (m : FsM α) : Prop := Wp guarded m (fun _ t' => t' = t) t

section Stays

variable {t : Bool} {α β : Type} {m m' : FsM α} {f : α → FsM β}

theorem Stays.bind (h : Stays t m) (hf : ∀ a, Stays t (f a)) : Stays t (m >>= f) :=
  Wp.bind h fun a t' ht' => by
    subst ht'
    exact hf a

/-- A part that stays, and the rest of the program. -/
theorem Stays.andThen {Q : β → Bool → Prop} (h : Stays t m) (hf : ∀ a, Wp guarded (f a) Q t) :
    Wp guarded (m >>= f) Q t :=
  Wp.bind h fun a t' ht' => by
    subst ht'
    exact hf a

theorem Stays.ite {c : Prop} [Decidable c] (h : Stays t m) (h' : Stays t m') :
    Stays t (if c then m else m') := by
  split
  · exact h
  · exact h'

theorem Stays.when {c : Prop} [Decidable c] {m : FsM PUnit} (h : Stays t m) :
    Stays t (Prog.when c m) := by
  unfold Prog.when
  exact h.ite rfl

theorem stays_pure (a : α) : Stays t (pure a : FsM α) := rfl

/-- Only the result is still to be returned. -/
theorem Stays.ret {g : α → β} (h : Stays t m) : Stays t (m >>= fun a => pure (g a)) :=
  h.bind fun _ => stays_pure _

theorem stays_forRange {body : ℕ → FsM PUnit} (h : ∀ i, Stays t (body i)) (n a : ℕ) :
    Stays t (forRange body n a) :=
  wp_forRange (H := guarded) _ (fun _ t' => t' = t) n a rfl fun i _ _ t' ht' => by
    subst ht'
    exact h i

theorem stays_bufcacheRead (dev sector : ℕ) : Stays t (bufcacheRead dev sector) := fun _ => rfl

theorem stays_bufData (b : ℕ) : Stays t (bufData b) := fun _ => rfl

theorem stays_setBufData (b : ℕ) (data : Block) : Stays t (setBufData b data) := rfl

theorem stays_bufcacheRelease (b : ℕ) : Stays t (bufcacheRelease b) := rfl

theorem stays_logWrite (b : ℕ) : Stays true (logWrite b) := ⟨rfl, rfl⟩

theorem stays_junk : Stays t junk := fun _ => rfl

theorem stays_critical (g : Kmem → Except Stop (α × Kmem)) : Stays t (critical g) := fun _ _ _ _ => rfl

theorem stays_readMem (g : Kmem → α) : Stays t (readMem g) := fun _ _ _ _ => rfl

theorem stays_modifyMem (g : Kmem → Kmem) : Stays t (modifyMem g) := fun _ _ _ _ => rfl

theorem stays_kernPanic (msg : String) : Stays t (kernPanic msg : FsM α) := fun _ _ _ _ => rfl

theorem stays_diverge : Stays t (diverge : FsM α) := fun _ _ _ _ => rfl

theorem stays_getInode (ip : ℕ) : Stays t (getInode ip) := fun _ _ _ _ => rfl

theorem stays_modifyInode (ip : ℕ) (g : Dinode → Dinode) : Stays t (modifyInode ip g) := fun _ _ _ _ => rfl

theorem stays_getFile (f : ℕ) : Stays t (getFile f) := fun _ _ _ _ => rfl

theorem stays_modifyFile (f : ℕ) (g : File → File) : Stays t (modifyFile f g) := fun _ _ _ _ => rfl

theorem stays_inode {ip : ℕ} {f : Inode → FsM β} (h : ∀ x, Stays t (f x)) :
    Stays t (getInode ip >>= f) :=
  (stays_getInode _).bind h

/-- A block is read. -/
theorem stays_load {dev sector : ℕ} {f : ℕ → Block → FsM β} (h : ∀ b data, Stays t (f b data)) :
    Stays t (bufcacheRead dev sector >>= fun b => bufData b >>= f b) :=
  (stays_bufcacheRead _ _).bind fun b => (stays_bufData b).bind (h b)

/-- A block is written and released. -/
theorem stays_store (b : ℕ) (data : Block) :
    Stays true (setBufData b data >>= fun _ => logWrite b >>= fun _ => bufcacheRelease b) :=
  (stays_setBufData _ _).bind fun _ => (stays_logWrite _).bind fun _ => stays_bufcacheRelease _

theorem stays_store_bind {b : ℕ} {data : Block} {f : PUnit → FsM β} (h : ∀ a, Stays true (f a)) :
    Stays true (setBufData b data >>= fun _ => logWrite b >>= fun _ => bufcacheRelease b >>= f) :=
  (stays_setBufData _ _).bind fun _ => (stays_logWrite _).bind fun _ =>
    (stays_bufcacheRelease _).bind h

end Stays

section Functions

variable {t : Bool}

theorem stays_readSuperblock (dev : ℕ) : Stays t (readSuperblock dev) :=
  stays_load fun _ _ => (stays_bufcacheRelease _).ret

theorem stays_blockZero (dev bno : ℕ) : Stays true (blockZero dev bno) :=
  (stays_bufcacheRead _ _).bind fun _ => stays_store _ _

theorem stays_note (e : Event) : Stays true (note e) := fun _ => rfl

theorem stays_blockAllocFrom (dev : ℕ) (sb : Superblock) (k b : ℕ) :
    Stays true (blockAllocFrom dev sb k b) := by
  induction k generalizing b with
  | zero => exact (stays_note _).bind fun _ => stays_junk
  | succ k ih =>
    unfold blockAllocFrom
    refine stays_load fun _ data => ?_
    cases data.freeBitFrom b sb.size bpb 0 with
    | none => exact (stays_bufcacheRelease _).bind fun _ => ih _
    | some bi =>
      exact (stays_note _).when.bind fun _ => stays_store_bind fun _ =>
        (stays_blockZero _ _).ret

/-- Allocating a block is allowed everywhere, because it is noted. -/
theorem stays_blockAlloc (dev : ℕ) : Stays t (blockAlloc dev) := by
  cases t with
  | true =>
    exact (stays_note _).bind fun _ => (stays_readSuperblock _).bind fun _ =>
      stays_blockAllocFrom _ _ _ _
  | false => exact fun he => absurd (he (by decide)) Bool.false_ne_true

theorem stays_blockFree (dev b : ℕ) : Stays true (blockFree dev b) :=
  (stays_readSuperblock _).bind fun _ => stays_load fun _ _ => (stays_kernPanic _).ite (stays_store _ _)

theorem stays_inodeGet (dev inum : ℕ) : Stays t (inodeGet dev inum) := stays_critical _

theorem stays_inodeAllocFrom (dev type k inum : ℕ) : Stays true (inodeAllocFrom dev type k inum) := by
  induction k generalizing inum with
  | zero => exact stays_kernPanic _
  | succ k ih =>
    refine stays_load fun _ _ => Stays.ite (stays_store_bind fun _ => stays_inodeGet _ _) ?_
    exact (stays_bufcacheRelease _).bind fun _ => ih _

theorem stays_inodeAlloc (dev type : ℕ) : Stays true (inodeAlloc dev type) :=
  (stays_readSuperblock _).bind fun _ => stays_inodeAllocFrom _ _ _ _

theorem stays_inodeUpdate (ip : ℕ) : Stays true (inodeUpdate ip) :=
  stays_inode fun _ => stays_load fun _ _ => stays_inode fun _ =>
    stays_store _ _

theorem stays_inodeDup (ip : ℕ) : Stays t (inodeDup ip) := stays_modifyMem _

theorem stays_inodeLock (ip : ℕ) : Stays t (inodeLock ip) :=
  (stays_critical _).bind fun _ => (stays_critical _).bind fun _ => stays_inode fun _ =>
    Stays.when <| stays_load fun _ _ => (stays_modifyInode _ _).bind fun _ =>
      (stays_bufcacheRelease _).bind fun _ =>
      (stays_modifyMem _).bind fun _ => stays_inode fun _ => (stays_kernPanic _).when

theorem stays_inodeUnlock (ip : ℕ) : Stays t (inodeUnlock ip) := stays_critical _

theorem stays_bmapAddr (ip i : ℕ) : Stays t (bmapAddr ip i) :=
  stays_inode fun _ => Stays.ite ((stays_blockAlloc _).bind fun _ =>
    (stays_modifyInode _ _).ret) (stays_pure _)

/-- Once a block has been allocated, the process is known to be in a transaction. -/
theorem stays_blockAlloc_bind {α : Type} {dev : ℕ} {f : ℕ → FsM α}
    (h : ∀ a, Stays true (f a)) : Stays t (blockAlloc dev >>= f) := by
  cases t with
  | true => exact (stays_blockAlloc _).bind h
  | false => exact fun he => absurd (he (by decide)) Bool.false_ne_true

theorem stays_bmap (ip bn : ℕ) : Stays t (bmap ip bn) := by
  refine Stays.ite (stays_bmapAddr _ _) (Stays.ite ?_ (stays_kernPanic _))
  refine (stays_bmapAddr _ _).bind fun _ => stays_inode fun _ =>
    stays_load fun _ _ => Stays.ite ?_ ?_
  · exact stays_blockAlloc_bind fun _ => (stays_bufData _).bind fun _ =>
      stays_store_bind fun _ => stays_pure _
  · exact (stays_bufcacheRelease _).ret

theorem stays_inodeTrunc (ip : ℕ) : Stays true (inodeTrunc ip) := by
  refine Stays.bind (stays_forRange (fun i => ?_) _ _) fun _ => ?_
  · exact stays_inode fun _ => Stays.when <| (stays_blockFree _ _).bind fun _ =>
      stays_modifyInode _ _
  · refine stays_inode fun _ => Stays.bind (Stays.when ?_) fun _ => ?_
    · refine (stays_bufcacheRead _ _).bind fun _ => Stays.bind (stays_forRange (fun j => ?_) _ _)
        fun _ => ?_
      · exact (stays_bufData _).bind fun _ => (stays_blockFree _ _).when
      · exact (stays_bufcacheRelease _).bind fun _ => stays_inode fun _ =>
          (stays_blockFree _ _).bind fun _ => stays_modifyInode _ _
    · exact (stays_modifyInode _ _).bind fun _ => stays_inodeUpdate _

theorem stays_inodePut (ip : ℕ) : Stays t (inodePut ip) := by
  refine (stays_critical _).bind fun last => Stays.when ?_
  cases t with
  | true =>
    exact (stays_note _).bind fun _ => (stays_inodeTrunc _).bind fun _ =>
      (stays_modifyInode _ _).bind fun _ => (stays_inodeUpdate _).bind fun _ => stays_modifyMem _
  | false => exact fun he => absurd (he (by decide)) Bool.false_ne_true

theorem stays_inodeUnlockput (ip : ℕ) : Stays t (inodeUnlockput ip) :=
  (stays_inodeUnlock _).bind fun _ => stays_inodePut _

theorem stays_inodeReadLoop (ip k off rem : ℕ) (acc : Bytes) :
    Stays t (inodeReadLoop ip k off rem acc) := by
  induction k generalizing off rem acc with
  | zero => exact stays_pure _
  | succ k ih =>
    exact Stays.ite (stays_pure _) <| (stays_bmap _ _).bind fun _ => stays_inode fun _ =>
      stays_load fun _ _ => (stays_bufcacheRelease _).bind fun _ => ih _ _ _

theorem stays_inodeRead (ip off n : ℕ) : Stays t (inodeRead ip off n) :=
  stays_inode fun _ => Stays.ite ((stays_pure _).ite (stays_kernPanic _)) <|
    (stays_pure _).ite <| (stays_inodeReadLoop _ _ _ _ _).ret

theorem stays_inodeWriteLoop (ip k off : ℕ) (src : Bytes) :
    Stays true (inodeWriteLoop ip k off src) := by
  induction k generalizing off src with
  | zero => exact stays_pure _
  | succ k ih =>
    exact Stays.ite (stays_pure _) <| (stays_bmap _ _).bind fun _ => stays_inode fun _ =>
      stays_load fun _ _ => stays_store_bind fun _ => ih _ _

theorem stays_inodeWrite (ip : ℕ) (src : Bytes) (off : ℕ) : Stays true (inodeWrite ip src off) :=
  stays_inode fun _ => Stays.ite ((stays_pure _).ite (stays_kernPanic _)) <|
    (stays_pure _).ite <| (stays_pure _).ite <| (stays_inodeWriteLoop _ _ _ _).bind fun _ =>
    stays_inode fun _ => Stays.bind (Stays.when ((stays_modifyInode _ _).bind fun _ =>
      stays_inodeUpdate _)) fun _ => stays_pure _

theorem stays_readDirent (dp off : ℕ) (msg : String) : Stays t (readDirent dp off msg) := by
  refine (stays_inodeRead _ _ _).bind fun r => ?_
  cases r with
  | none => exact stays_kernPanic _
  | some bytes => exact (stays_pure _).ite (stays_kernPanic _)

theorem stays_dirLookupFrom (dp : ℕ) (name : Bytes) (k off : ℕ) :
    Stays t (dirLookupFrom dp name k off) := by
  induction k generalizing off with
  | zero => exact stays_diverge
  | succ k ih =>
    exact stays_inode fun _ => Stays.ite ((stays_readDirent _ _ _).bind fun _ =>
      (ih _).ite <| Stays.ite ((stays_inodeGet _ _).ret) (ih _)) (stays_pure _)

theorem stays_dirLookup (dp : ℕ) (name : Bytes) : Stays t (dirLookup dp name) :=
  stays_inode fun _ => (stays_kernPanic _).ite (stays_dirLookupFrom _ _ _ _)

theorem stays_dirFreeFrom (dp k off : ℕ) : Stays t (dirFreeFrom dp k off) := by
  induction k generalizing off with
  | zero => exact stays_diverge
  | succ k ih =>
    exact stays_inode fun _ => Stays.ite ((stays_readDirent _ _ _).bind fun _ =>
      (stays_pure _).ite (ih _)) (stays_pure _)

theorem stays_dirLink (dp : ℕ) (name : Bytes) (inum : ℕ) : Stays true (dirLink dp name inum) := by
  refine (stays_dirLookup _ _).bind fun found => ?_
  cases found with
  | some p => exact (stays_inodePut _).ret
  | none =>
    exact stays_inode fun _ => (stays_dirFreeFrom _ _ _).bind fun _ =>
      (stays_inodeWrite _ _ _).bind fun _ => (stays_pure _).ite (stays_kernPanic _)

theorem stays_namexFrom (parent : Bool) (k ip : ℕ) (path name : Bytes) :
    Stays t (namexFrom parent k ip path name) := by
  induction k generalizing ip path name with
  | zero => exact stays_diverge
  | succ k ih =>
    unfold namexFrom
    cases skipelem path with
    | none => exact Stays.ite ((stays_inodePut _).ret) (stays_pure _)
    | some p =>
      refine (stays_inodeLock _).bind fun _ => stays_inode fun _ => ?_
      refine Stays.ite ((stays_inodeUnlockput _).ret) <|
        Stays.ite ((stays_inodeUnlock _).ret) <|
        (stays_dirLookup _ _).bind fun subdir => (stays_inodeUnlockput _).bind fun _ => ?_
      cases subdir with
      | none => exact stays_pure _
      | some q => exact ih _ _ _

theorem stays_namexStart (pid : ℕ) (path : Bytes) : Stays t (namexStart pid path) :=
  (stays_inodeGet _ _).ite <| (stays_readMem _).bind fun _ => (stays_inodeDup _).ret

theorem stays_namex (pid : ℕ) (path : Bytes) (parent : Bool) : Stays t (namex pid path parent) :=
  (stays_namexStart _ _).bind fun _ => stays_namexFrom _ _ _ _ _

theorem stays_namei (pid : ℕ) (path : Bytes) : Stays t (namei pid path) :=
  (stays_namex _ _ _).ret

theorem stays_nameiparent (pid : ℕ) (path : Bytes) : Stays t (nameiparent pid path) :=
  stays_namex _ _ _

theorem stays_isdiremptyFrom (dp k off : ℕ) : Stays t (isdiremptyFrom dp k off) := by
  induction k generalizing off with
  | zero => exact stays_diverge
  | succ k ih =>
    exact stays_inode fun _ => Stays.ite ((stays_readDirent _ _ _).bind fun _ =>
      (stays_pure _).ite (ih _)) (stays_pure _)

theorem stays_isdirempty (dp : ℕ) : Stays t (isdirempty dp) :=
  stays_inode fun _ => stays_isdiremptyFrom _ _ _

theorem stays_lockFile (f : ℕ) : Stays t (lockFile f) := by
  refine (stays_getFile _).bind fun x => ?_
  cases x.ip with
  | none => exact stays_kernPanic _
  | some ip => exact (stays_inodeLock _).ret

theorem stays_advance (f r : ℕ) : Stays t (advance f r) := (stays_modifyFile _ _).when

theorem stays_fileRead (f n : ℕ) : Stays t (fileRead f n) := by
  refine (stays_getFile _).bind fun _ => (stays_pure _).ite <| Stays.ite ?_ (stays_kernPanic _)
  refine (stays_lockFile _).bind fun _ => (stays_getFile _).bind fun _ =>
    (stays_inodeRead _ _ _).bind fun r => ?_
  cases r with
  | none => exact (stays_inodeUnlock _).ret
  | some bytes =>
    exact (stays_advance _ _).bind fun _ => (stays_inodeUnlock _).ret

theorem stays_createDots (dp ip inum : ℕ) : Stays true (createDots dp ip inum) :=
  (stays_modifyInode _ _).bind fun _ => (stays_inodeUpdate _).bind fun _ =>
    (stays_dirLink _ _ _).bind fun _ => (stays_kernPanic _).when.bind fun _ =>
    stays_inode fun _ => (stays_dirLink _ _ _).bind fun _ => (stays_kernPanic _).when

theorem stays_create (pid : ℕ) (path : Bytes) (type major minor : ℕ) :
    Stays true (create pid path type major minor) := by
  refine (stays_nameiparent _ _).bind fun parent => ?_
  cases parent with
  | none => exact stays_pure _
  | some p =>
    refine (stays_inodeLock _).bind fun _ => (stays_dirLookup _ _).bind fun found => ?_
    cases found with
    | some q =>
      exact (stays_inodeUnlockput _).bind fun _ => (stays_inodeLock _).bind fun _ =>
        stays_inode fun _ => (stays_pure _).ite <|
        (stays_inodeUnlockput _).ret
    | none =>
      refine stays_inode fun _ => (stays_inodeAlloc _ _).bind fun _ =>
        (stays_inodeLock _).bind fun _ => (stays_modifyInode _ _).bind fun _ =>
        (stays_inodeUpdate _).bind fun _ => stays_inode fun _ => ?_
      exact (stays_createDots _ _ _).when.bind fun _ => (stays_dirLink _ _ _).bind fun _ =>
        (stays_kernPanic _).when.bind fun _ => (stays_inodeUnlockput _).ret

end Functions

/-! ### The system calls -/

/-- `m` starts inside a transaction, follows the rules and ends the transaction. -/
def Ends {α : Type} (m : FsM α) : Prop := Wp guarded m (fun _ t' => t' = false) true

section Calls

variable {α β : Type} {m m' : FsM α}

theorem Ends.bind {f : α → FsM β} (h : Stays true m) (hf : ∀ a, Ends (f a)) : Ends (m >>= f) :=
  h.andThen hf

theorem Ends.ite {c : Prop} [Decidable c] (h : Ends m) (h' : Ends m') :
    Ends (if c then m else m') := by
  split
  · exact h
  · exact h'

theorem ends_kernPanic (msg : String) : Ends (kernPanic msg : FsM α) := nofun

theorem ends_commit : Ends commitTrans := ⟨rfl, rfl⟩

theorem ends_commitTrans {f : PUnit → FsM α} (h : Stays false (f ⟨⟩)) : Ends (commitTrans >>= f) :=
  ⟨rfl, h⟩

theorem ends_ret {a : α} : Ends (commitTrans >>= fun _ => pure a) := ends_commitTrans (stays_pure a)

theorem stays_beginTrans {f : PUnit → FsM α} (h : Ends (f ⟨⟩)) : Stays false (beginTrans >>= f) := h

theorem stays_putFileInode (ff : File) : Stays true (putFileInode ff) := by
  unfold putFileInode
  cases ff.ip with
  | none => exact stays_kernPanic _
  | some ip => exact stays_inodePut _

theorem stays_fileClose (f : ℕ) : Stays false (fileClose f) := by
  refine (stays_critical _).bind fun last => ?_
  cases last with
  | none => exact stays_pure _
  | some ff =>
    exact Stays.when (stays_beginTrans (Ends.bind (stays_putFileInode _) fun _ => ends_commit))

theorem stays_fileWriteChunk (f : ℕ) (chunk : Bytes) : Stays false (fileWriteChunk f chunk) :=
  stays_beginTrans <| Ends.bind (stays_lockFile _) fun _ => Ends.bind (stays_getFile _) fun _ =>
    Ends.bind (stays_inodeWrite _ _ _) fun _ => Ends.bind (stays_advance _ _) fun _ =>
    Ends.bind (stays_inodeUnlock _) fun _ => ends_ret

theorem stays_fileWriteLoop (f k : ℕ) (src : Bytes) : Stays false (fileWriteLoop f k src) := by
  induction k generalizing src with
  | zero => exact stays_pure _
  | succ k ih =>
    refine (stays_pure _).ite <| (stays_fileWriteChunk _ _).bind fun r => ?_
    cases r with
    | none => exact stays_pure _
    | some n => exact (ih _).ite (stays_kernPanic _)

theorem stays_fileWrite (f : ℕ) (src : Bytes) : Stays false (fileWrite f src) :=
  (stays_getFile _).bind fun _ => (stays_pure _).ite <| Stays.ite
    ((stays_fileWriteLoop _ _ _).ret) (stays_kernPanic _)

theorem stays_fileStat (f : ℕ) : Stays false (fileStat f) :=
  (stays_getFile _).bind fun _ => Stays.ite ((stays_lockFile _).bind fun _ =>
    stays_inode fun _ => (stays_inodeUnlock _).ret) (stays_pure _)

theorem stays_descriptor (pid fd : ℕ) : Stays false (descriptor pid fd) := by
  refine (stays_readMem _).bind fun fp => ?_
  cases fp with
  | none => exact stays_pure _
  | some f => exact (stays_getFile _).ret

theorem stays_sysReadLocked (pid fd userBuf n : ℕ) : Stays false (sysReadLocked pid fd userBuf n) := by
  refine (stays_pure _).ite <| (stays_pure _).ite <| (stays_descriptor _ _).bind fun fp => ?_
  cases fp with
  | none => exact stays_pure _
  | some f =>
    refine (stays_fileRead _ _).bind fun r => ?_
    cases r <;> exact stays_pure _

theorem stays_sysWriteLocked (pid fd userBuf : ℕ) (src : Bytes) :
    Stays false (sysWriteLocked pid fd userBuf src) := by
  refine (stays_pure _).ite <| (stays_pure _).ite <| (stays_descriptor _ _).bind fun fp => ?_
  cases fp with
  | none => exact stays_pure _
  | some f =>
    refine (stays_fileWrite _ _).bind fun r => ?_
    cases r <;> exact stays_pure _

theorem stays_sysClose (pid fd : ℕ) : Stays false (sysClose pid fd) := by
  refine (stays_pure _).ite <| (stays_readMem _).bind fun fp => ?_
  cases fp with
  | none => exact stays_pure _
  | some f =>
    exact (stays_fileClose _).bind fun _ => (stays_modifyMem _).ret

theorem stays_sysFstat (pid fd userStp : ℕ) : Stays false (sysFstat pid fd userStp) := by
  refine (stays_pure _).ite <| (stays_readMem _).bind fun fp => ?_
  cases fp with
  | none => exact stays_pure _
  | some f =>
    refine (stays_fileStat _).bind fun st => ?_
    cases st <;> exact stays_pure _

theorem ends_sysLinkBad (ip : ℕ) : Ends (sysLinkBad ip) :=
  Ends.bind (stays_inodeLock _) fun _ => Ends.bind (stays_modifyInode _ _) fun _ =>
    Ends.bind (stays_inodeUpdate _) fun _ => Ends.bind (stays_inodeUnlockput _) fun _ =>
    ends_ret

theorem stays_sysLink (pid : ℕ) (old new : Bytes) : Stays false (sysLink pid old new) := by
  refine (stays_namei _ _).bind fun found => ?_
  cases found with
  | none => exact stays_pure _
  | some ip =>
    refine stays_beginTrans <| Ends.bind (stays_inodeLock _) fun _ =>
      Ends.bind (stays_getInode _) fun _ => Ends.ite ?_ ?_
    · exact Ends.bind (stays_inodeUnlockput _) fun _ => ends_ret
    · refine Ends.bind (stays_modifyInode _ _) fun _ => Ends.bind (stays_inodeUpdate _) fun _ =>
        Ends.bind (stays_inodeUnlock _) fun _ => Ends.bind (stays_nameiparent _ _) fun parent => ?_
      cases parent with
      | none => exact ends_sysLinkBad _
      | some p =>
        exact Ends.bind (stays_inodeLock _) fun _ => Ends.bind (stays_getInode _) fun _ =>
          Ends.bind (stays_getInode _) fun _ => Ends.bind ((stays_pure _).ite (stays_dirLink _ _ _))
          fun _ => Ends.bind (stays_inodeUnlockput _) fun _ => Ends.ite (Ends.bind (stays_inodePut _)
          fun _ => ends_ret) (ends_sysLinkBad _)

theorem ends_sysUnlinkBad (dp : ℕ) : Ends (sysUnlinkBad dp) :=
  Ends.bind (stays_inodeUnlockput _) fun _ => ends_ret

theorem ends_sysUnlinkEntry (dp ip off : ℕ) : Ends (sysUnlinkEntry dp ip off) :=
  Ends.bind (stays_inodeWrite _ _ _) fun _ => (ends_kernPanic _).ite <|
    Ends.bind (stays_getInode _) fun _ => Ends.bind (Stays.when ((stays_modifyInode _ _).bind
      fun _ => stays_inodeUpdate _)) fun _ => Ends.bind (stays_inodeUnlockput _) fun _ =>
    Ends.bind (stays_modifyInode _ _) fun _ => Ends.bind (stays_inodeUpdate _) fun _ =>
    Ends.bind (stays_inodeUnlockput _) fun _ => ends_ret

theorem stays_sysUnlink (pid : ℕ) (buf : Bytes) : Stays false (sysUnlink pid buf) := by
  refine (stays_nameiparent _ _).bind fun parent => ?_
  cases parent with
  | none => exact stays_pure _
  | some p =>
    refine stays_beginTrans <| Ends.bind (stays_inodeLock _) fun _ => (ends_sysUnlinkBad _).ite <|
      Ends.bind (stays_dirLookup _ _) fun found => ?_
    cases found with
    | none => exact ends_sysUnlinkBad _
    | some q =>
      exact Ends.bind (stays_inodeLock _) fun _ => Ends.bind (stays_getInode _) fun _ =>
        (ends_kernPanic _).ite <| Ends.bind ((stays_isdirempty _).ite (stays_pure _)) fun _ =>
        (ends_sysUnlinkEntry _ _ _).ite <| Ends.bind (stays_inodeUnlockput _) fun _ =>
        ends_sysUnlinkBad _

theorem stays_sysOpenInode (pid ip omode : ℕ) : Stays false (sysOpenInode pid ip omode) := by
  refine (stays_critical _).bind fun f => ?_
  cases f with
  | none => exact (stays_inodeUnlockput _).ret
  | some f =>
    refine (stays_critical _).bind fun fd => ?_
    cases fd with
    | none =>
      exact (stays_fileClose _).bind fun _ => (stays_inodeUnlockput _).ret
    | some fd =>
      exact (stays_inodeUnlock _).bind fun _ => (stays_modifyFile _ _).ret

theorem stays_logInit : Stays false logInit := rfl

theorem stays_sysOpenFirst : Stays false sysOpenFirst :=
  (stays_readMem _).bind fun _ => Stays.when ((stays_modifyMem _).bind fun _ => stays_logInit)

theorem stays_sysOpenPath (pid : ℕ) (buf : Bytes) (omode : ℕ) :
    Stays false (sysOpenPath pid buf omode) := by
  refine Stays.ite ?_ ?_
  · refine stays_beginTrans <| Ends.bind (stays_create _ _ _ _ _) fun found => ends_commitTrans ?_
    cases found with
    | none => exact stays_pure _
    | some ip => exact stays_sysOpenInode _ _ _
  · refine (stays_namei _ _).bind fun found => ?_
    cases found with
    | none => exact stays_pure _
    | some ip =>
      exact (stays_inodeLock _).bind fun _ => stays_inode fun _ => Stays.ite
        ((stays_inodeUnlockput _).ret) (stays_sysOpenInode _ _ _)

theorem stays_sysMkdir (pid : ℕ) (buf : Bytes) : Stays false (sysMkdir pid buf) := by
  refine stays_beginTrans <| Ends.bind (stays_create _ _ _ _ _) fun made => ?_
  cases made with
  | none => exact ends_ret
  | some ip => exact Ends.bind (stays_inodeUnlockput _) fun _ => ends_ret

theorem stays_sysChdir (pid : ℕ) (buf : Bytes) : Stays false (sysChdir pid buf) := by
  refine (stays_namei _ _).bind fun found => ?_
  cases found with
  | none => exact stays_pure _
  | some ip =>
    exact (stays_inodeLock _).bind fun _ => stays_inode fun _ => Stays.ite
      ((stays_inodeUnlockput _).ret) <| (stays_inodeUnlock _).bind fun _ =>
      (stays_readMem _).bind fun _ => (stays_inodePut _).bind fun _ =>
      (stays_modifyMem _).ret

/-- Every call follows the rules, and is outside a transaction when it returns. -/
theorem Call.guarded_prog (pid : ℕ) (c : Call) : Stays false (c.prog pid) := by
  cases c with
  | «open» path omode => exact stays_sysOpenFirst.bind fun _ => stays_sysOpenPath _ _ _
  | close fd => exact stays_sysClose _ _
  | read fd userBuf n =>
    exact (stays_critical _).bind fun _ => (stays_sysReadLocked _ _ _ _).bind fun _ =>
      (stays_modifyMem _).ret
  | write fd userBuf src =>
    exact (stays_critical _).bind fun _ => (stays_sysWriteLocked _ _ _ _).bind fun _ =>
      (stays_modifyMem _).ret
  | mkdir path => exact stays_sysMkdir _ _
  | chdir path => exact stays_sysChdir _ _
  | link old new => exact stays_sysLink _ _ _
  | unlink path => exact stays_sysUnlink _ _
  | fstat fd userStp => exact stays_sysFstat _ _ _

end Calls

/-! ### `log.busy` -/

section Busy

variable {v : Bool}

/-- The value of `log.busy`. -/
def BusyIs (v : Bool) (s : LogSys) : Prop := s.log.busy = v

/-- The panic of `log_write` outside a transaction. -/
def outsidePanic : Stop := .panic "write outside of trans"

/-- The ways to stop while `log.busy` is `v`. -/
def MayStop (v : Bool) (e : Stop) : Prop := v = true → e ≠ outsidePanic

/-- `m` leaves `log.busy` alone, and in a transaction it does not panic for being
outside. -/
def MindsBusy (v : Bool) {α : Type} (m : LogM α) : Prop := Keeps (BusyIs v) (MayStop v) m

theorem minds_throw {α : Type} {e : Stop} (h : e ≠ outsidePanic) : MindsBusy v (throw e : LogM α) :=
  keeps_throw fun _ => h

theorem minds_modify {g : LogSys → LogSys} (h : ∀ s, (g s).log.busy = s.log.busy) :
    MindsBusy v (modify g : LogM PUnit) :=
  keeps_modify fun s hs => (h s).trans hs

theorem minds_ideRequest (b : ℕ) : MindsBusy v (ideRequest true b) := by
  intro s hs
  unfold Outcome ideRequest
  cases Bcache.ideRw true s.c s.disk b with
  | none => exact fun _ => by simp [outsidePanic]
  | some p => exact hs

theorem minds_bufcacheRead (dev sector : ℕ) :
    MindsBusy v (Mcertikos.bufcacheRead true dev sector) := by
  refine keeps_get fun s _ => ?_
  cases s.c.bufcacheGet dev sector with
  | take b c' =>
    refine Keeps.bind (minds_modify fun _ => rfl) fun _ => ?_
    dsimp only
    split
    · exact (minds_ideRequest b).bind fun _ => keeps_pure b
    · exact keeps_pure b
  | sleep | noBuffers | diverge => exact minds_throw (by simp [outsidePanic])

theorem minds_bufcacheWrite (b : ℕ) : MindsBusy v (Mcertikos.bufcacheWrite true b) := by
  refine keeps_get fun s _ => ?_
  split
  · exact minds_throw (by simp [outsidePanic])
  · exact Keeps.bind (minds_modify fun _ => rfl) fun _ => minds_ideRequest b

theorem minds_bufcacheRelease (b : ℕ) : MindsBusy v (Mcertikos.bufcacheRelease b) := by
  refine keeps_get fun s _ => ?_
  split
  · exact minds_throw (by simp [outsidePanic])
  · exact minds_modify fun _ => rfl

theorem minds_installTrans : MindsBusy v (installTrans true) := by
  refine keeps_get fun _ _ => keeps_forRange (fun _ => ?_) _
  refine (minds_bufcacheRead _ _).bind fun _ => (minds_bufcacheRead _ _).bind fun _ => ?_
  exact Keeps.bind (minds_modify fun _ => rfl) fun _ => (minds_bufcacheWrite _).bind fun _ =>
    (minds_bufcacheRelease _).bind fun _ => minds_bufcacheRelease _

theorem minds_writeHead : MindsBusy v (writeHead true) :=
  keeps_get fun _ _ => (minds_bufcacheRead _ _).bind fun _ =>
    Keeps.bind (minds_modify fun _ => rfl) fun _ => (minds_bufcacheWrite _).bind fun _ =>
    minds_bufcacheRelease _

theorem minds_installAndErase : MindsBusy v (installAndErase true) :=
  minds_installTrans.bind fun _ => Keeps.bind (minds_modify fun _ => rfl) fun _ => minds_writeHead

theorem minds_readHead : MindsBusy v (readHead true) :=
  keeps_get fun _ _ => (minds_bufcacheRead _ _).bind fun _ =>
    Keeps.bind (minds_modify fun _ => rfl) fun _ => minds_bufcacheRelease _

theorem minds_setLog (start size dev : ℕ) : MindsBusy v
    (modify fun s => { s with log := { s.log with start := start, size := size, dev := dev } } :
      LogM PUnit) :=
  minds_modify fun _ => rfl

theorem minds_logInit : MindsBusy v (Mcertikos.logInit true) := by
  unfold Mcertikos.logInit
  refine (minds_bufcacheRead _ _).bind fun _ => keeps_get fun _ _ => ?_
  exact (minds_bufcacheRelease _).bind fun _ => (minds_setLog _ _ _).bind fun _ =>
    minds_readHead.bind fun _ => minds_installAndErase

theorem minds_logWrite (b : ℕ) : MindsBusy v (Mcertikos.logWrite true b) := by
  -- the two tests are made in the state in which the call starts
  refine keeps_get fun s hs => ?_
  dsimp only
  split
  · exact minds_throw (by simp [outsidePanic])
  · split
    · rename_i hfree
      refine keeps_throw fun hv => ?_
      cases (hs.trans hv).symm.trans hfree
    · exact Keeps.bind (minds_modify fun _ => rfl) fun _ => (minds_bufcacheRead _ _).bind fun _ =>
        Keeps.bind (minds_modify fun _ => rfl) fun _ => (minds_bufcacheWrite _).bind fun _ =>
        (minds_bufcacheRelease _).bind fun _ => Keeps.bind (minds_modify fun _ => rfl) fun _ =>
        minds_modify fun _ => rfl

/-- The operations that leave `log.busy` alone. -/
theorem handler_busy {β : Type} {o : FsOp β} {s s' : FsSys} {b : β}
    (h : handler β o s = .ok b s') (hb : ∀ t, o.after t = t) :
    s'.sys.log.busy = s.sys.log.busy := by
  cases o with
  | bread dev sector => exact (minds_bufcacheRead dev sector).ok rfl (onLog_ok h).1
  | data | setData | junk | note =>
    cases h
    rfl
  | logWrite c => exact (minds_logWrite c).ok rfl (onLog_ok h).1
  | brelse c => exact (minds_bufcacheRelease c).ok rfl (onLog_ok h).1
  | beginTrans => cases hb false
  | commitTrans => cases hb true
  | logInit => exact minds_logInit.ok rfl (onLog_ok h).1
  | mem f =>
    obtain ⟨k', -, rfl⟩ := handler_mem h
    rfl

end Busy

/-! ### All processes -/

namespace World

/-- Every process about to write is inside a transaction of its own. -/
def WritesInside (x : World) : Prop :=
  ∀ pid c b k t, x.proc pid = some ⟨c, .step (.logWrite b) k, t⟩ → t = true

/-- No process is about to hit the panic of `log_write` outside a transaction. -/
def NoOutsidePanic (x : World) : Prop :=
  ∀ pid c b k t s', x.proc pid = some ⟨c, .step (.logWrite b) k, t⟩ →
    handler PUnit (.logWrite b) x.s ≠ .error outsidePanic s'

/-- Every process about to free an inode in `inode_put`, or to allocate a block in `bmap`,
is inside a transaction of its own. -/
def Covered (x : World) : Prop :=
  ∀ pid c (β : Type) (o : FsOp β) k t, x.proc pid = some ⟨c, .step o k, t⟩ →
    o.changesBlocks → t = true

/-- The processes follow the rules, and at most one is in a transaction. -/
structure Guarded (x : World) : Prop where
  prog : ∀ pid p, x.proc pid = some p → Prog.Wp guarded p.prog (fun _ t => t = false) p.inTrans
  busy : ∀ pid p, x.proc pid = some p → p.inTrans = true → x.s.sys.log.busy = true
  unique : ∀ pid p pid' p', x.proc pid = some p → x.proc pid' = some p' → p.inTrans = true →
    p'.inTrans = true → pid = pid'

variable {x y : World}

theorem Guarded.writesInside (h : x.Guarded) : x.WritesInside :=
  fun pid _ _ _ _ hp => (h.prog pid _ hp).1

theorem Guarded.noOutsidePanic (h : x.Guarded) : x.NoOutsidePanic := by
  intro pid c b k t s' hp hs
  have hbusy := h.busy pid _ hp (h.writesInside pid c b k t hp)
  dsimp only [handler, onLog] at hs
  cases hm : Mcertikos.logWrite true b x.s.sys with
  | ok a sys' =>
    rw [hm] at hs
    cases hs
  | error e sys' =>
    rw [hm] at hs
    cases hs
    exact (minds_logWrite b x.s.sys hbusy).error hm rfl rfl

theorem guarded_boot (disk : Disk) (junk : ℕ → ℕ) : (boot disk junk).Guarded where
  prog := nofun
  busy := nofun
  unique := nofun

variable {pid n : ℕ} {s' : FsSys} {t : Bool} {β : Type} {c : Call}

theorem update_cases {f : ℕ → Option Proc} {q : ℕ} {v : Option Proc} {p : Proc}
    (h : update f pid v q = some p) : (q = pid ∧ v = some p) ∨ (q ≠ pid ∧ f q = some p) := by
  by_cases he : q = pid
  · subst he
    rw [update_self] at h
    exact .inl ⟨rfl, h⟩
  · rw [update_of_ne he] at h
    exact .inr ⟨he, h⟩

/-- A step of one process: its new state follows the rules, and if it is in a transaction
then no other one is. -/
theorem Guarded.update (h : x.Guarded) {v : Option Proc}
    (hy : y.proc = Function.update x.proc pid v)
    (hprog : ∀ p, v = some p → Prog.Wp guarded p.prog (fun _ t => t = false) p.inTrans)
    (hbusy : ∀ p, v = some p → p.inTrans = true → y.s.sys.log.busy = true)
    (hother : ∀ q p, q ≠ pid → x.proc q = some p → p.inTrans = true →
      y.s.sys.log.busy = true ∧ ∀ p', v = some p' → p'.inTrans = false) : y.Guarded := by
  refine ⟨fun q p hq => ?_, fun q p hq ht => ?_, fun q p q' p' hq hq' ht ht' => ?_⟩
  · rw [hy] at hq
    rcases update_cases hq with ⟨-, hv⟩ | ⟨-, hq⟩
    · exact hprog p hv
    · exact h.prog q p hq
  · rw [hy] at hq
    rcases update_cases hq with ⟨-, hv⟩ | ⟨hne, hq⟩
    · exact hbusy p hv ht
    · exact (hother q p hne hq ht).1
  · rw [hy] at hq hq'
    rcases update_cases hq with ⟨he, hv⟩ | ⟨hne, hq⟩
    · rcases update_cases hq' with ⟨he', -⟩ | ⟨hne', hq'⟩
      · rw [he, he']
      · have := (hother q' p' hne' hq' ht').2 p hv
        rw [ht] at this
        cases this
    · rcases update_cases hq' with ⟨-, hv'⟩ | ⟨-, hq'⟩
      · have := (hother q p hne hq ht).2 p' hv'
        rw [ht'] at this
        cases this
      · exact h.unique q p q' p' hq hq' ht ht'

/-- What the rules say about a step that is taken. -/
theorem guarded_after {o : FsOp β} {Q : β → Bool → Prop} {s : FsSys} {b : β}
    (h : guarded.pre o Q t) (hnote : o.changesBlocks → t = true)
    (hop : handler β o s = .ok b s') : Q b (o.after t) := by
  cases o with
  | bread | data | junk => exact h b
  | setData | brelse | beginTrans | logInit => exact h
  | logWrite | commitTrans => exact h.2
  | mem f =>
    obtain ⟨k', hf, -⟩ := handler_mem hop
    exact h b _ k' hf
  | note e => exact h hnote

theorem beginTrans_free {s s' : LogSys} (h : Mcertikos.beginTrans s = .ok ⟨⟩ s') :
    s.log.busy = false ∧ s'.log.busy = true := by
  refine ⟨?_, by rw [Trans.beginTrans_ok h]⟩
  cases hb : s.log.busy with
  | false => rfl
  | true =>
    unfold Mcertikos.beginTrans at h
    obtain ⟨s1, s2, hget, h⟩ := bind_eq_ok.mp h
    cases hget
    rw [if_pos hb] at h
    cases h

/-- How `log.busy` follows the process that performs an operation. -/
theorem handler_busy_cases {o : FsOp β} {Q : β → Bool → Prop} {s : FsSys}
    {b : β} (h : guarded.pre o Q t) (hop : handler β o s = .ok b s') :
    (o.after t = t ∧ s'.sys.log.busy = s.sys.log.busy) ∨
    (o.after t = true ∧ s.sys.log.busy = false ∧ s'.sys.log.busy = true) ∨
    (t = true ∧ o.after t = false) := by
  cases o with
  | beginTrans => exact .inr (.inl ⟨rfl, beginTrans_free (onLog_ok hop).1⟩)
  | commitTrans => exact .inr (.inr ⟨h.1, rfl⟩)
  | _ => exact .inl ⟨rfl, handler_busy hop fun _ => rfl⟩

theorem Guarded.did (h : x.Guarded) (hc : x.Covered) {o : FsOp β}
    {k : β → FsM Ret} {b : β} (hp : x.proc pid = some ⟨c, .step o k, t⟩)
    (hop : handler β o x.s = .ok b s') : (x.did pid c o t (k b) s').Guarded := by
  have hpre := h.prog pid _ hp
  have hcases := handler_busy_cases hpre hop
  refine h.update rfl (fun p hv => ?_) (fun p hv ht => ?_) fun q p hne hq ht => ?_
  · cases hv
    exact guarded_after hpre (hc pid c β o k t hp) hop
  · cases hv
    rcases hcases with ⟨ha, hb⟩ | ⟨-, -, hb⟩ | ⟨-, ha⟩
    · exact hb.trans (h.busy pid _ hp (ha.symm.trans ht))
    · exact hb
    · cases ha.symm.trans ht
  · -- another process is in a transaction, so this one is not
    have hfree : t = false := by
      cases ht' : t with
      | false => rfl
      | true => exact absurd (h.unique q p pid _ hq hp ht ht') hne
    have hbusy := h.busy q p hq ht
    rcases hcases with ⟨ha, hb⟩ | ⟨-, hb, -⟩ | ⟨ht', -⟩
    · refine ⟨hb.trans hbusy, fun p' hv => ?_⟩
      cases hv
      exact ha.trans hfree
    · rw [hbusy] at hb
      cases hb
    · rw [hfree] at ht'
      cases ht'

/-- One step keeps the rules. -/
theorem Guarded.step (h : x.Guarded) (hc : x.Covered) (hstep : x.Step y) : y.Guarded := by
  cases hstep with
  | call c hpid hidle =>
    refine h.update rfl (fun p hv => ?_) (fun p hv ht => ?_) fun q p _ hq ht => ?_
    · cases hv
      exact c.guarded_prog _
    · cases hv
      cases ht
    · refine ⟨h.busy q p hq ht, fun p' hv => ?_⟩
      cases hv
      rfl
  | op hp hop => exact h.did hc hp hop
  | ret hp =>
    exact h.update rfl nofun nofun fun q p _ hq ht => ⟨h.busy q p hq ht, nofun⟩

/-- **Writes are inside transactions.**  In every interleaving in which `inode_put` frees
inodes and `bmap` allocates blocks inside transactions only, every `log_write` is between
the `begin_trans` and the `commit_trans` of its own process, and does not panic for being
outside a transaction. -/
theorem log_write_inside (disk : Disk) (junk : ℕ → ℕ)
    (hrun : ReflTransGen (fun x y => x.Covered ∧ x.Step y) (boot disk junk) x) :
    x.WritesInside ∧ x.NoOutsidePanic := by
  have hg : x.Guarded := by
    induction hrun with
    | refl => exact guarded_boot disk junk
    | tail _ hstep ih => exact ih.step hstep.1 hstep.2
  exact ⟨hg.writesInside, hg.noOutsidePanic⟩

/-! ### Examples -/

/-- One step of process `pid`, in a call. -/
def next (x : World) (pid : ℕ) : Option World :=
  match x.proc pid with
  | some ⟨c, .step o k, t⟩ =>
    match handler _ o x.s with
    | .ok b s' => forceSys s' fun s' => some (x.did pid c o t (k b) s')
    | .error _ _ => none
  | some ⟨_, .ret _, _⟩ => forceAll x.s fun s => some { x.finish pid with s := s }
  | none => none

/-- What `next` does: a step of the process `pid`, which stays in its call or leaves it. -/
theorem next_spec (h : x.next pid = some y) : x.Step y ∧ ∃ v,
    y.proc = update x.proc pid v ∧
      ∀ p, v = some p → ∃ p0, x.proc pid = some p0 ∧ p0.call = p.call := by
  unfold next at h
  split at h
  · rename_i c β o k t hp
    split at h
    · rename_i b s' hop
      rw [forceSys_eq] at h
      cases h
      refine ⟨.op hp hop, _, rfl, fun p hv => ⟨_, hp, ?_⟩⟩
      cases hv
      rfl
    · cases h
  · rename_i c r t hp
    rw [forceAll_eq] at h
    cases h
    exact ⟨.ret hp, none, rfl, nofun⟩
  · cases h

def steps (pid : ℕ) : ℕ → World → Option World
  | 0, x => some x
  | n + 1, x =>
    match x.next pid with
    | some y => steps pid n y
    | none => none

theorem steps_succ : steps pid (n + 1) x = (x.next pid).bind (steps pid n) := by
  rw [steps]
  cases x.next pid <;> rfl

theorem run_of_steps (h : steps pid n x = some y) : ReflTransGen Step x y := by
  induction n generalizing x with
  | zero =>
    cases h
    exact .refl
  | succ n ih =>
    rw [steps_succ] at h
    obtain ⟨x', hn, h⟩ := Option.bind_eq_some_iff.mp h
    exact .head (next_spec hn).1 (ih h)

/-- Process `pid` calls `c` and takes `n` steps. -/
def callSteps (pid : ℕ) (c : Call) (n : ℕ) (x : World) : Option World :=
  match x.proc pid with
  | none => steps pid n (x.start pid c)
  | some _ => none

theorem run_of_callSteps (hpid : pid < numIds)
    (h : callSteps pid c n x = some y) : ReflTransGen Step x y := by
  unfold callSteps at h
  cases hp : x.proc pid with
  | none =>
    rw [hp] at h
    exact .head (.call c hpid hp) (run_of_steps h)
  | some p =>
    rw [hp] at h
    cases h

/-- Whether process `pid` is covered. -/
def quiet (x : World) (pid : ℕ) : Bool :=
  match x.proc pid with
  | some ⟨_, .step (.note e) _, false⟩ => e = .exhausts
  | _ => true

theorem covered_of_quiet (halone : ∀ q, q ≠ pid → x.proc q = none)
    (h : x.quiet pid = true) : x.Covered := by
  intro q c β o k t hp hchange
  by_cases hq : q = pid
  · subst hq
    cases o with
    | note e =>
      cases t with
      | true => rfl
      | false =>
        unfold quiet at h
        rw [hp] at h
        exact absurd (of_decide_eq_true h) hchange
    | _ => exact hchange.elim
  · rw [halone q hq] at hp
    cases hp

/-- `steps` for a process that is alone, as long as it is covered. -/
def quietSteps (pid : ℕ) : ℕ → World → Option World
  | 0, x => some x
  | n + 1, x =>
    if x.quiet pid then
      match x.next pid with
      | some y => quietSteps pid n y
      | none => none
    else none

theorem alone_of_next (halone : ∀ q, q ≠ pid → x.proc q = none)
    (h : x.next pid = some y) : ∀ q, q ≠ pid → y.proc q = none := by
  intro q hq
  obtain ⟨-, v, hv, -⟩ := next_spec h
  rw [hv, update_of_ne hq, halone q hq]

theorem run_of_quietSteps (halone : ∀ q, q ≠ pid → x.proc q = none)
    (h : quietSteps pid n x = some y) :
    ReflTransGen (fun x y => x.Covered ∧ x.Step y) x y ∧ ∀ q, q ≠ pid → y.proc q = none := by
  induction n generalizing x with
  | zero =>
    cases h
    exact ⟨.refl, halone⟩
  | succ n ih =>
    unfold quietSteps at h
    split at h
    · rename_i hquiet
      split at h
      · rename_i x' hn
        obtain ⟨hrun, hy⟩ := ih (alone_of_next halone hn) h
        exact ⟨.head ⟨covered_of_quiet halone hquiet, (next_spec hn).1⟩ hrun, hy⟩
      · cases h
    · cases h

/-- Process 0 calls `c` after others have left the kernel, and takes `n` steps. -/
def quietCall (c : Call) (n : ℕ) (x : World) : Option World :=
  match x.proc 0 with
  | none => quietSteps 0 n (x.start 0 c)
  | some _ => none

theorem run_of_quietCall (halone : ∀ q, q ≠ 0 → x.proc q = none) (h : quietCall c n x = some y) :
    ReflTransGen (fun x y => x.Covered ∧ x.Step y) x y ∧ ∀ q, q ≠ 0 → y.proc q = none := by
  unfold quietCall at h
  cases hp : x.proc 0 with
  | some p =>
    rw [hp] at h
    cases h
  | none =>
    rw [hp] at h
    have hquiet : x.quiet 0 = true := by
      unfold quiet
      rw [hp]
    obtain ⟨hrun, hy⟩ := run_of_quietSteps (fun q hq => (update_of_ne hq _ _).trans (halone q hq)) h
    exact ⟨.head ⟨covered_of_quiet halone hquiet, .call c (by decide) hp⟩ hrun, hy⟩

/-- `/f`. -/
def pathF : Bytes := [slash, 102]

/-- Process 0 opens a file, which initialises the log, and removes `/f`, up to the first
`log_write`. -/
def unlinkRun : Option World :=
  (quietCall (.open [] 0) 20 (boot oneFile fun _ => 0)).bind (quietCall (.unlink pathF) 49)

/-- Process 0 is about to call `log_write`. -/
def writes (x : World) : Bool :=
  match x.proc 0 with
  | some ⟨_, .step (.logWrite _) _, _⟩ => true
  | _ => false

theorem unlinkRun_writes : unlinkRun.any writes = true := by decide +kernel

theorem log_write_inside_unlink : ∃ x : World,
    ReflTransGen (fun x y => x.Covered ∧ x.Step y) (boot oneFile fun _ => 0) x ∧
      x.writes = true ∧ x.WritesInside ∧ x.NoOutsidePanic := by
  obtain ⟨x, h, hwrites⟩ := (Option.any_eq_true ..).mp unlinkRun_writes
  obtain ⟨x₁, h₁, h₂⟩ := Option.bind_eq_some_iff.mp h
  obtain ⟨hrun₁, halone⟩ := run_of_quietCall (fun _ _ => rfl) h₁
  obtain ⟨hrun₂, -⟩ := run_of_quietCall halone h₂
  have hrun := hrun₁.trans hrun₂
  exact ⟨x, hrun, hwrites, log_write_inside oneFile (fun _ => 0) hrun⟩

/-- Process 0 opens a file, which initialises the log.  Process 1 calls `chdir("/f")` and
has found the inode when process 2 removes the file.  Process 1 then goes on: the inode is
no directory, and it drops the last reference to it. -/
def chdirRace : Option World :=
  (callSteps 0 (.open [] 0) 20 (boot oneFile fun _ => 0)).bind fun x =>
    (callSteps 1 (.chdir pathF) 30 x).bind fun x =>
    (callSteps 2 (.unlink pathF) 67 x).bind fun x => steps 1 14 x

/-- Process `pid` is about to call `log_write` outside a transaction of its own, and the
log has room and is not busy. -/
def writesOutside (x : World) (pid : ℕ) : Bool :=
  match x.proc pid with
  | some ⟨_, .step (.logWrite _) _, false⟩ =>
    !x.s.sys.log.busy && x.s.sys.log.lh.n < logsize && x.s.sys.log.lh.n + 1 < x.s.sys.log.size
  | _ => false

theorem logWrite_outside {s : LogSys} {b : ℕ} (hbusy : s.log.busy = false)
    (hn : s.log.lh.n < logsize) (hsize : s.log.lh.n + 1 < s.log.size) :
    Mcertikos.logWrite true b s = .error outsidePanic s := by
  unfold Mcertikos.logWrite
  show EStateM.bind _ _ s = _
  unfold EStateM.bind
  dsimp only [get, getThe, MonadStateOf.get, EStateM.get]
  rw [if_neg (by omega), if_pos hbusy]
  rfl

theorem not_writesInside (h : x.writesOutside pid = true) :
    ¬ x.WritesInside ∧ ¬ x.NoOutsidePanic := by
  unfold writesOutside at h
  split at h
  · rename_i c b k hp
    simp only [Bool.and_eq_true, Bool.not_eq_true', decide_eq_true_eq] at h
    refine ⟨fun hw => absurd (hw pid c b k false hp) Bool.false_ne_true, fun hw => ?_⟩
    refine hw pid c b k false x.s hp ?_
    dsimp only [handler, onLog]
    rw [logWrite_outside h.1.1 h.1.2 h.2]
  · cases h

theorem chdirRace_outside : chdirRace.any (writesOutside · 1) = true := by decide +kernel

/-- `sys_chdir` frees an inode outside a transaction, and panics in `log_write`. -/
theorem chdir_writes_outside : ∃ x : World,
    ReflTransGen Step (boot oneFile fun _ => 0) x ∧ ¬ x.WritesInside ∧ ¬ x.NoOutsidePanic := by
  obtain ⟨x, h, hrace⟩ := (Option.any_eq_true ..).mp chdirRace_outside
  obtain ⟨x₁, h₁, h⟩ := Option.bind_eq_some_iff.mp h
  obtain ⟨x₂, h₂, h⟩ := Option.bind_eq_some_iff.mp h
  obtain ⟨x₃, h₃, h⟩ := Option.bind_eq_some_iff.mp h
  refine ⟨x, ?_, not_writesInside hrace⟩
  exact (run_of_callSteps (by decide) h₁).trans <| (run_of_callSteps (by decide) h₂).trans <|
    (run_of_callSteps (by decide) h₃).trans (run_of_steps h)

end World

end Fs

end Mcertikos
