/-
The first use of the file system after boot.

The log is recovered by `log_init`, which the first `sys_open` calls.  Other calls do not
ask for it, and a second `sys_open` does not wait for it.

* `World.Orderly` — until `log_init` has returned, one process is in `sys_open`, and the
  others make calls that do not reach the disk;
* `recovery_first` — in orderly runs no block is read or written before `log_init` has
  returned;
* `chdir_before_recovery` — a `sys_chdir` right after boot reads an inode first.
-/
import Mcertikos.Fs.Processes

namespace Mcertikos

namespace Fs

open Relation Function Prog

/-- An operation that reads a block for the file system, or calls `log_write`. -/
def FsOp.usesDisk {β : Type} : FsOp β → Prop
  | .bread _ _ => True
  | .logWrite _ => True
  | _ => False

def Call.isOpen : Call → Prop
  | .open _ _ => True
  | _ => False

/-- Calls that do not reach the disk as long as no file is open: those on descriptors, and
`sys_mkdir` and `sys_unlink` of a path without elements. -/
def Call.offDisk : Call → Prop
  | .close _ => True
  | .read _ _ _ => True
  | .write _ _ _ => True
  | .fstat _ _ => True
  | .mkdir path => skipelem (pathArg path) = none
  | .unlink path => skipelem (pathArg path) = none
  | _ => False

/-- Kernel memory before the first inode has been read: no file is open, and no slot of the
inode cache is valid. -/
structure Early (k : Kmem) : Prop where
  files : ∀ pid fd, k.openfiles pid fd = none
  invalid : ∀ i, (k.inode i).valid = false

theorem early_bootKmem : Early bootKmem where
  files := fun _ _ => rfl
  invalid := fun i => by
    by_cases hi : i = 0
    · subst hi
      rfl
    · unfold bootKmem rootKmem
      rw [if_neg (by decide), Kmem.setInode_other _ _ hi]
      rfl

theorem Early.setInode {k : Kmem} (h : Early k) {ip : ℕ} {x : Inode} (hx : x.valid = false) :
    Early (k.setInode ip x) where
  files := h.files
  invalid := fun i => by
    by_cases hi : i = ip
    · rw [hi, Kmem.setInode_self, hx]
    · rw [Kmem.setInode_other k x hi]
      exact h.invalid i

/-! ### Rules -/

/-- Rules for the calls that do not reach the disk: they keep `first` and early memory. -/
def offDisk : Rules FsOp Unit where
  pre := fun {β} o Q t =>
    match β, o, Q with
    | _, .mem f, Q => ∀ k b k', Early k → f k = .ok (b, k') → (Early k' ∧ k'.first = k.first) ∧ Q b t
    | _, .bread _ _, _ => False
    | _, .logWrite _, _ => False
    | _, .logInit, _ => False
    | _, _, Q => ∀ b, Q b t
  mono := by
    intro β o Q Q' t hQ h
    cases o with
    | mem f => exact fun k b k' hk hf => ⟨(h k b k' hk hf).1, hQ _ _ (h k b k' hk hf).2⟩
    | bread | logWrite | logInit => exact h
    | _ => exact fun b => hQ _ _ (h b)

/-- Rules for the process in `sys_open`, which knows the value of `first`; what it does
after `log_init` does not matter. -/
def opening : Rules FsOp Bool where
  pre := fun {β} o Q v =>
    match β, o, Q with
    | _, .mem f, Q => ∀ k b k', Early k → k.first = v → f k = .ok (b, k') → Early k' ∧ Q b k'.first
    | _, .bread _ _, _ => False
    | _, .logWrite _, _ => False
    | _, .logInit, _ => True
    | _, _, Q => ∀ b, Q b v
  mono := by
    intro β o Q Q' t hQ h
    cases o with
    | mem f => exact fun k b k' hk hv hf => ⟨(h k b k' hk hv hf).1, hQ _ _ (h k b k' hk hv hf).2⟩
    | bread | logWrite | logInit => exact h
    | _ => exact fun b => hQ _ _ (h b)

/-- `sys_open` on the first use: it reaches `log_init` before any block. -/
theorem opening_sysOpen (pid : ℕ) (buf : Bytes) (omode : ℕ) :
    Prog.Wp opening (sysOpen pid buf omode) (fun _ _ => False) true := by
  intro k b k' hk hv hf
  cases hf
  refine ⟨hk, ?_⟩
  show Prog.Wp opening (Prog.when (k.first = true) _ >>= _) _ k.first
  rw [hv]
  intro k b k' hk _ hf
  cases hf
  exact ⟨⟨hk.files, hk.invalid⟩, trivial⟩

section OffDisk

variable {α : Type} {Q : α → Unit → Prop} {u : Unit}

/-- Reading memory. -/
theorem offDisk_readMem {g : Kmem → α} (h : ∀ k, Early k → Q (g k) u) :
    Prog.Wp offDisk (readMem g) Q u := by
  intro k b k' hk hf
  cases hf
  exact ⟨⟨hk, rfl⟩, h k hk⟩

theorem offDisk_inodeGet {Q : ℕ → Unit → Prop} {dev inum : ℕ} (h : ∀ ip, Q ip u) :
    Prog.Wp offDisk (inodeGet dev inum) Q u := by
  intro k b k' hk hf
  refine ⟨?_, h b⟩
  rcases (Kmem.inodeGet_cases hf).2 with ⟨-, -, -, rfl⟩ | ⟨-, -, rfl⟩
  · exact ⟨hk.setInode (hk.invalid b), rfl⟩
  · exact ⟨hk.setInode rfl, rfl⟩

theorem offDisk_inodeDup {Q : PUnit → Unit → Prop} {ip : ℕ} (h : Q ⟨⟩ u) :
    Prog.Wp offDisk (inodeDup ip) Q u := by
  intro k b k' hk hf
  cases hf
  exact ⟨⟨hk.setInode (hk.invalid ip), rfl⟩, h⟩

/-- No slot is valid, so nothing is freed. -/
theorem offDisk_inodePut {Q : PUnit → Unit → Prop} {ip : ℕ} (h : Q ⟨⟩ u) :
    Prog.Wp offDisk (inodePut ip) Q u := by
  intro k b k' hk hf
  rcases Kmem.inodePut_cases hf with ⟨-, ⟨-, hvalid, -⟩, -⟩ | ⟨rfl, -, rfl⟩
  · rw [hk.invalid ip] at hvalid
    cases hvalid
  · exact ⟨⟨hk.setInode (hk.invalid ip), rfl⟩, h⟩

variable {pid : ℕ}

theorem offDisk_nameiparent {path : Bytes} {Q : Option (ℕ × Bytes) → Unit → Prop}
    (hpath : skipelem path = none) (h : Q none u) :
    Prog.Wp offDisk (nameiparent pid path) Q u := by
  have hfrom : ∀ ip, Prog.Wp offDisk (namexFrom true (path.length + 1) ip path []) Q u := by
    intro ip
    unfold namexFrom
    rw [hpath]
    exact Wp.bind (offDisk_inodePut (Q := fun _ _ => True) trivial) fun _ _ _ => h
  refine Wp.bind (Q := fun _ _ => True) ?_ fun ip _ _ => hfrom ip
  unfold namexStart
  split
  · exact offDisk_inodeGet fun _ => trivial
  · refine Wp.bind (offDisk_readMem (Q := fun _ _ => True) fun _ _ => trivial) fun ip _ _ => ?_
    exact Wp.bind (offDisk_inodeDup (Q := fun _ _ => True) trivial) fun _ _ _ => trivial

theorem offDisk_create {type major minor : ℕ} {path : Bytes} {Q : Option ℕ → Unit → Prop}
    (hpath : skipelem path = none) (h : Q none u) :
    Prog.Wp offDisk (create pid path type major minor) Q u :=
  wp_bind.mpr (offDisk_nameiparent hpath h)

/-- No descriptor refers to a file. -/
theorem offDisk_openfiles {fd : ℕ} {Q : Option ℕ → Unit → Prop} (h : Q none u) :
    Prog.Wp offDisk (readMem (·.openfiles pid fd)) Q u :=
  offDisk_readMem fun k hk => by rw [hk.files pid fd]; exact h

theorem offDisk_descriptor {fd : ℕ} {Q : Option ℕ → Unit → Prop} (h : Q none u) :
    Prog.Wp offDisk (descriptor pid fd) Q u :=
  wp_bind.mpr (offDisk_openfiles h)

/-- A call under `buf_lock`. -/
theorem offDisk_bufLock {m : FsM Ret} (h : Prog.Wp offDisk m (fun _ _ => True) u) :
    Prog.Wp offDisk (do
      acquireBufLock
      let ret ← m
      releaseBufLock
      pure ret) (fun _ _ => True) u := by
  intro k b k' hk hf
  dsimp only at hf
  split at hf
  · cases hf
  · cases hf
    refine ⟨⟨⟨hk.files, hk.invalid⟩, rfl⟩, ?_⟩
    show Prog.Wp offDisk (m >>= _) _ u
    refine Wp.bind h fun _ _ _ => ?_
    intro k b k' hk hf
    cases hf
    exact ⟨⟨⟨hk.files, hk.invalid⟩, rfl⟩, trivial⟩

end OffDisk

theorem Call.offDisk_prog (pid : ℕ) {c : Call} (h : c.offDisk) :
    Prog.Wp Fs.offDisk (c.prog pid) (fun _ _ => True) () := by
  cases c with
  | «open» | chdir | link => exact h.elim
  | close fd =>
    show Prog.Wp _ (sysClose pid fd) _ _
    unfold sysClose
    split
    · trivial
    · exact wp_bind.mpr (offDisk_openfiles trivial)
  | fstat fd userStp =>
    show Prog.Wp _ (sysFstat pid fd userStp) _ _
    unfold sysFstat
    split
    · trivial
    · exact wp_bind.mpr (offDisk_openfiles trivial)
  | read fd userBuf n =>
    refine offDisk_bufLock ?_
    unfold sysReadLocked
    split
    · trivial
    · split
      · trivial
      · exact wp_bind.mpr (offDisk_descriptor trivial)
  | write fd userBuf src =>
    refine offDisk_bufLock ?_
    unfold sysWriteLocked
    split
    · trivial
    · split
      · trivial
      · exact wp_bind.mpr (offDisk_descriptor trivial)
  | mkdir path =>
    intro _
    show Prog.Wp Fs.offDisk (create pid (pathArg path) tDir 0 0 >>= _) _ _
    exact wp_bind.mpr (offDisk_create h fun _ => trivial)
  | unlink path => exact wp_bind.mpr (offDisk_nameiparent h trivial)

/-! ### All processes -/

namespace World

/-- No process is about to use the disk before `log_init` has returned. -/
def RecoveryFirst (x : World) : Prop :=
  ∀ pid c (β : Type) (o : FsOp β) k t, x.proc pid = some ⟨c, .step o k, t⟩ → o.usesDisk →
    x.recovered = true

/-- Before `log_init` has returned, at most one process is in `sys_open`, and the others
are in calls that do not reach the disk. -/
def Orderly (x : World) : Prop :=
  x.recovered = false →
    (∀ pid p, x.proc pid = some p → p.call.isOpen ∨ p.call.offDisk) ∧
    ∀ pid p pid' p', x.proc pid = some p → x.proc pid' = some p' → p.call.isOpen →
      p'.call.isOpen → pid = pid'

/-- The state of the system before recovery: the process in `sys_open` has not yet called
`log_init`, and `first` is set if there is none. -/
structure Unrecovered (x : World) : Prop where
  early : Early x.s.k
  prog : ∀ pid p, x.proc pid = some p →
    (p.call.isOpen ∧ Prog.Wp opening p.prog (fun _ _ => False) x.s.k.first) ∨
    (p.call.offDisk ∧ Prog.Wp offDisk p.prog (fun _ _ => True) ())
  first : (∀ pid p, x.proc pid = some p → ¬ p.call.isOpen) → x.s.k.first = true

variable {x y : World}

variable {c : Call} {pid : ℕ} {t : Bool} {s' : FsSys} {β : Type}

theorem Call.not_offDisk_of_isOpen (h : c.isOpen) : ¬ c.offDisk := by
  cases c with
  | «open» path omode => exact fun h => h
  | _ => exact h.elim

theorem unrecovered_boot (disk : Disk) (junk : ℕ → ℕ) : (boot disk junk).Unrecovered where
  early := early_bootKmem
  prog := nofun
  first := fun _ => rfl

theorem start_self (x : World) (pid : ℕ) (c : Call) :
    (x.start pid c).proc pid = some ⟨c, c.prog pid, false⟩ := update_self ..

theorem Unrecovered.start (h : x.Unrecovered) (c : Call) (hidle : x.proc pid = none)
    (hy : (x.start pid c).Orderly) (hrec : x.recovered = false) : (x.start pid c).Unrecovered := by
  obtain ⟨hcalls, hunique⟩ := hy hrec
  have hself := x.start_self pid c
  have hother : ∀ q p, x.proc q = some p → (x.start pid c).proc q = some p := by
    intro q p hq
    have hne : q ≠ pid := fun he => by rw [he, hidle] at hq; cases hq
    exact (update_of_ne hne _ _).trans hq
  refine ⟨h.early, fun q p hq => ?_, fun hnone => ?_⟩
  · rcases update_cases hq with ⟨rfl, hv⟩ | ⟨-, hq⟩
    · cases hv
      rcases hcalls _ _ hself with hopen | hoff
      · refine .inl ⟨hopen, ?_⟩
        -- nobody else is in `sys_open`, so `first` is still set
        have hfirst : x.s.k.first = true := h.first fun q' p' hq' hopen' => by
          have := hunique q' p' _ _ (hother q' p' hq') hself hopen' hopen
          rw [this, hidle] at hq'
          cases hq'
        cases c with
        | «open» path omode =>
          show Prog.Wp opening _ _ x.s.k.first
          rw [hfirst]
          exact opening_sysOpen _ path omode
        | _ => exact hopen.elim
      · exact .inr ⟨hoff, Call.offDisk_prog _ hoff⟩
    · exact h.prog q p hq
  · exact h.first fun q p hq => hnone q p (hother q p hq)

theorem Unrecovered.finish (h : x.Unrecovered) {r : Ret}
    (hp : x.proc pid = some ⟨c, .ret r, t⟩) : (x.finish pid).Unrecovered := by
  have hnot : ¬ c.isOpen := by
    intro hopen
    rcases h.prog pid _ hp with ⟨-, hfalse⟩ | ⟨hoff, -⟩
    · exact hfalse
    · exact Call.not_offDisk_of_isOpen hopen hoff
  refine ⟨h.early, fun q p hq => ?_, fun hnone => ?_⟩
  · rcases update_cases hq with ⟨-, hv⟩ | ⟨-, hq⟩
    · cases hv
    · exact h.prog q p hq
  · refine h.first fun q p hq => ?_
    by_cases hne : q = pid
    · subst hne
      rw [hp] at hq
      cases hq
      exact hnot
    · exact hnone q p ((update_of_ne hne _ _).trans hq)

/-- What the rules of the calls say about a step that is taken. -/
theorem offDisk_after {o : FsOp β} {Q : β → Unit → Prop} {s : FsSys} {b : β}
    (h : offDisk.pre o Q ()) (hk : Early s.k) (hop : handler β o s = .ok b s') :
    Early s'.k ∧ s'.k.first = s.k.first ∧ o.isLogInit = false ∧ Q b () := by
  cases o with
  | bread | logWrite | logInit => exact h.elim
  | mem f =>
    obtain ⟨k', hf, rfl⟩ := handler_mem hop
    obtain ⟨⟨h1, h2⟩, h3⟩ := h _ b k' hk hf
    exact ⟨h1, h2, rfl, h3⟩
  | data | setData | junk | note =>
    cases hop
    exact ⟨hk, rfl, rfl, h _⟩
  | brelse | beginTrans | commitTrans =>
    rw [(onLog_ok hop).2]
    exact ⟨hk, rfl, rfl, h _⟩

theorem opening_after {o : FsOp β} {Q : β → Bool → Prop} {s : FsSys} {b : β}
    (h : opening.pre o Q s.k.first) (hk : Early s.k) (hop : handler β o s = .ok b s')
    (hinit : o.isLogInit = false) : Early s'.k ∧ Q b s'.k.first := by
  cases o with
  | bread | logWrite => exact h.elim
  | logInit => cases hinit
  | mem f =>
    obtain ⟨k', hf, rfl⟩ := handler_mem hop
    exact h _ b k' hk rfl hf
  | data | setData | junk | note =>
    cases hop
    exact ⟨hk, h _⟩
  | brelse | beginTrans | commitTrans =>
    rw [(onLog_ok hop).2]
    exact ⟨hk, h _⟩

theorem Unrecovered.did (h : x.Unrecovered) {o : FsOp β}
    {k : β → FsM Ret} {b : β} (hx : x.Orderly) (hrec : x.recovered = false)
    (hp : x.proc pid = some ⟨c, .step o k, t⟩) (hop : handler β o x.s = .ok b s')
    (hinit : o.isLogInit = false) : (x.did pid c o t (k b) s').Unrecovered := by
  rcases h.prog pid _ hp with ⟨hopen, hwp⟩ | ⟨hoff, hwp⟩
  · -- the process in `sys_open`: the others do not look at `first`
    obtain ⟨hk, hrest⟩ := opening_after hwp h.early hop hinit
    refine ⟨hk, fun q p hq => ?_, fun hnone => ?_⟩
    · rcases update_cases hq with ⟨-, hv⟩ | ⟨hne, hq⟩
      · cases hv
        exact .inl ⟨hopen, hrest⟩
      · rcases h.prog q p hq with ⟨hopen', -⟩ | hoff'
        · exact absurd ((hx hrec).2 q p pid _ hq hp hopen' hopen) hne
        · exact .inr hoff'
    · exact absurd hopen (hnone pid ⟨c, k b, o.after t⟩ (update_self ..))
  · obtain ⟨hk, hfirst, -, hrest⟩ := offDisk_after hwp h.early hop
    refine ⟨hk, fun q p hq => ?_, fun hnone => ?_⟩
    · rcases update_cases hq with ⟨-, hv⟩ | ⟨-, hq⟩
      · cases hv
        exact .inr ⟨hoff, hrest⟩
      · show (_ ∧ Prog.Wp opening p.prog _ s'.k.first) ∨ _
        rw [hfirst]
        exact h.prog q p hq
    · refine hfirst.trans (h.first fun q p hq => ?_)
      by_cases hne : q = pid
      · subst hne
        rw [hp] at hq
        cases hq
        exact fun hopen => Call.not_offDisk_of_isOpen hopen hoff
      · exact hnone q p ((update_of_ne hne _ _).trans hq)

theorem Unrecovered.step (h : x.Unrecovered) (hx : x.Orderly) (hstep : x.Step y) (hy : y.Orderly)
    (hrec : y.recovered = false) : y.Unrecovered := by
  cases hstep with
  | call c hpid hidle => exact h.start c hidle hy hrec
  | op hp hop =>
    obtain ⟨hrec', hinit⟩ := Bool.or_eq_false_iff.mp hrec
    exact h.did hx hrec' hp hop hinit
  | ret hp => exact h.finish hp

theorem Unrecovered.not_usesDisk (h : x.Unrecovered) {o : FsOp β}
    {k : β → FsM Ret} (hp : x.proc pid = some ⟨c, .step o k, t⟩) : ¬ o.usesDisk := by
  intro huse
  cases o with
  | bread | logWrite =>
    rcases h.prog pid _ hp with ⟨-, hwp⟩ | ⟨-, hwp⟩
    · exact hwp
    · exact hwp
  | _ => exact huse

theorem step_recovered (hstep : x.Step y) (h : x.recovered = true) : y.recovered = true := by
  cases hstep with
  | call | ret => exact h
  | op hp hop => exact Bool.or_eq_true_iff.mpr (.inl h)

/-- **Recovery comes first** in every orderly run: no process reads a block or calls
`log_write` before `log_init` has returned. -/
theorem recovery_first (disk : Disk) (junk : ℕ → ℕ)
    (hrun : ReflTransGen (fun x y => x.Step y ∧ y.Orderly) (boot disk junk) x) :
    x.RecoveryFirst := by
  have hinv : x.Orderly ∧ (x.recovered = false → x.Unrecovered) := by
    induction hrun with
    | refl => exact ⟨fun _ => ⟨nofun, nofun⟩,
        fun _ => unrecovered_boot disk junk⟩
    | @tail x' y' _ hstep ih =>
      refine ⟨hstep.2, fun hrec => ?_⟩
      have hrec' : x'.recovered = false := by
        cases hr : x'.recovered with
        | false => rfl
        | true =>
          rw [step_recovered hstep.1 hr] at hrec
          cases hrec
      exact (ih.2 hrec').step ih.1 hstep.1 hstep.2 hrec
  intro pid c β o k t hp huse
  cases hrec : x.recovered with
  | true => rfl
  | false => exact absurd huse ((hinv.2 hrec).not_usesDisk hp)

/-! ### Examples -/

/-- If only process `pid` is in a call, and that is `sys_open`, then all is in order. -/
theorem orderly_of_alone (halone : ∀ q, q ≠ pid → x.proc q = none)
    (hopen : ∀ p, x.proc pid = some p → p.call.isOpen) : x.Orderly := by
  have heq : ∀ q p, x.proc q = some p → q = pid := fun q p hq => by
    by_contra hne
    rw [halone q hne] at hq
    cases hq
  refine fun _ => ⟨fun q p hq => ?_, fun q p q' p' hq hq' _ _ => (heq q p hq).trans (heq q' p' hq').symm⟩
  obtain rfl := heq q p hq
  exact .inl (hopen p hq)

theorem isOpen_of_next (hopen : ∀ p, x.proc pid = some p → p.call.isOpen)
    (h : x.next pid = some y) : ∀ p, y.proc pid = some p → p.call.isOpen := by
  intro p hp
  obtain ⟨-, v, hv, hcall⟩ := next_spec h
  rw [hv, update_self] at hp
  obtain ⟨p0, hp0, heq⟩ := hcall p hp
  exact heq ▸ hopen p0 hp0

theorem run_of_openSteps {n : ℕ} (halone : ∀ q, q ≠ pid → x.proc q = none)
    (hopen : ∀ p, x.proc pid = some p → p.call.isOpen) (h : steps pid n x = some y) :
    ReflTransGen (fun x y => x.Step y ∧ y.Orderly) x y := by
  induction n generalizing x with
  | zero =>
    cases h
    exact .refl
  | succ n ih =>
    rw [steps_succ] at h
    obtain ⟨x', hn, h⟩ := Option.bind_eq_some_iff.mp h
    have halone' := alone_of_next halone hn
    have hopen' := isOpen_of_next hopen hn
    exact .head ⟨(next_spec hn).1, orderly_of_alone halone' hopen'⟩ (ih halone' hopen' h)

/-- Process 0 is about to read a block, and whether `log_init` has returned. -/
def reads (x : World) : Option Bool :=
  match x.proc 0 with
  | some ⟨_, .step (.bread _ _) _, _⟩ => some x.recovered
  | _ => none

/-- Process 0 opens its working directory, up to the first block that `sys_open` reads. -/
def openRun : Option World := steps 0 8 ((boot oneFile fun _ => 0).start 0 (.open [] 0))

theorem openRun_reads : openRun.bind reads = some true := by decide +kernel

theorem recovery_first_open : ∃ x : World,
    ReflTransGen (fun x y => x.Step y ∧ y.Orderly) (boot oneFile fun _ => 0) x ∧
      x.reads = some true ∧ x.RecoveryFirst := by
  obtain ⟨x, hx, hreads⟩ := Option.bind_eq_some_iff.mp openRun_reads
  have halone : ∀ q, q ≠ 0 → ((boot oneFile fun _ => 0).start 0 (.open [] 0)).proc q = none :=
    fun q hq => update_of_ne hq _ _
  have hopen : ∀ p, ((boot oneFile fun _ => 0).start 0 (.open [] 0)).proc 0 = some p →
      p.call.isOpen := by
    intro p hp
    rw [start_self] at hp
    cases hp
    trivial
  have hrun := (run_of_openSteps halone hopen hx).head
    ⟨.call (.open [] 0) (by decide) rfl, orderly_of_alone halone hopen⟩
  exact ⟨x, hrun, hreads, recovery_first oneFile (fun _ => 0) hrun⟩

/-- Process 0 calls `chdir("")` right after boot. -/
def chdirRun : Option World := callSteps 0 (.chdir []) 5 (boot oneFile fun _ => 0)

theorem chdirRun_reads : chdirRun.bind reads = some false := by decide +kernel

/-- The inode block is read, and the inode cached, before the log has been recovered. -/
theorem chdir_before_recovery : ∃ x : World,
    ReflTransGen Step (boot oneFile fun _ => 0) x ∧ ¬ x.RecoveryFirst := by
  obtain ⟨x, hx, hreads⟩ := Option.bind_eq_some_iff.mp chdirRun_reads
  refine ⟨x, run_of_callSteps (by decide) hx, fun hfirst => ?_⟩
  unfold reads at hreads
  split at hreads
  · rename_i c dev sector k t hp
    have := hfirst 0 c ℕ (.bread dev sector) k t hp trivial
    rw [this] at hreads
    cases hreads
  · cases hreads

end World

end Fs

end Mcertikos
