/-
Who holds what: references, locks and buffers.

The ledger of a state has the reference count and the lock of every slot of the inode
cache, the file table, descriptors and working directories, the buffers that are held, and
whether there is a transaction.  Every function of the file system changes it in a simple
way, whatever it reads from the disk.

* `ledger`, `ledger_sound` — rules for the operations that keep track of the ledger;
* `Does L m Q` — from the ledger `L`, every run of `m` that returns does so with `Q`;
* `does_inodePut`, `does_namex`, `does_create` and the others — one for every function.

Design notes: a reference that a function drops is written as one that was added,
`L.addRef ip` before and `L` after, and the same with locks and buffers.  The state before
and the state after a function are then the same ledger with other additions.
-/
import Mcertikos.Fs.LogFlags
import Mcertikos.Fs.Sysfile

namespace Mcertikos

namespace Fs

open Function Prog Hoare

/-! ### Rules -/

/-- Kernel memory, the buffers that are busy, and whether there is a transaction. -/
structure Core where
  k : Kmem
  held : ℕ → Bool
  busy : Bool

/-- Rules that know nothing about the contents of buffers. -/
def ledger : Rules FsOp Core where
  pre := fun {β} o Q t =>
    match β, o, Q with
    | _, .bread dev _, Q => dev = rootdev ∧
        ∀ b, t.held b = false → Q b { t with held := update t.held b true }
    | _, .data _, Q => ∀ d, Q d t
    | _, .setData b _, Q => t.held b = true ∧ Q ⟨⟩ t
    | _, .logWrite b, Q => t.held b = true ∧ (t.busy = true → Q ⟨⟩ t)
    | _, .brelse b, Q => t.held b = true ∧ Q ⟨⟩ { t with held := update t.held b false }
    | _, .beginTrans, Q => t.busy = false → Q ⟨⟩ { t with busy := true }
    | _, .commitTrans, Q => Q ⟨⟩ { t with busy := false }
    | _, .logInit, Q => t.busy = false ∧ Q ⟨⟩ t
    | _, .mem f, Q => ∀ b k', f t.k = .ok (b, k') → Q b { t with k := k' }
    | _, .junk, Q => ∀ n, Q n t
    | _, .note _, Q => Q ⟨⟩ t
  mono := by
    intro β o Q Q' t hQ h
    cases o with
    | bread dev sector => exact ⟨h.1, fun b hb => hQ _ _ (h.2 b hb)⟩
    | data b => exact fun d => hQ _ _ (h d)
    | setData | brelse | logInit => exact ⟨h.1, hQ _ _ h.2⟩
    | logWrite b => exact ⟨h.1, fun hb => hQ _ _ (h.2 hb)⟩
    | beginTrans => exact fun hb => hQ _ _ (h hb)
    | commitTrans | note => exact hQ _ _ h
    | mem f => exact fun b k' hf => hQ _ _ (h b k' hf)
    | junk => exact fun n => hQ _ _ (h n)

/-- The state has this kernel memory, these busy buffers, and this flag of the log. -/
structure Tracks (s : FsSys) (t : Core) : Prop where
  k_eq : s.k = t.k
  flags : LogFlags t.held s.sys
  busy_eq : s.sys.log.busy = t.busy

theorem HasFlags.logFlags {h : ℕ → Bool} {s s' : LogSys} (hs : LogFlags h s) {h' : ℕ → Bool}
    (hf : HasFlags s.log.lh.Has h' s') (hlog : s'.log = s.log) : LogFlags h' s' := by
  obtain ⟨-, hidle, hdrive⟩ := hs
  rw [← hlog] at hf hidle hdrive
  exact ⟨hf, hidle, hdrive⟩

theorem ledger_sound : ledger.Sound (stepsOf handler) Tracks := by
  intro β o Q s t b s' hrel hpre hop
  obtain ⟨hk, hflags, hbusy⟩ := hrel
  cases o with
  | bread dev sector =>
    obtain ⟨rfl, hQ⟩ := hpre
    obtain ⟨hm, hk'⟩ := onLog_ok hop
    have htake := (flags_bufcacheRead hflags.flags sector).ok hm
    refine ⟨{ t with held := update t.held b true },
      ⟨hk'.trans hk, HasFlags.logFlags hflags htake.flags htake.log_eq, ?_⟩, hQ b htake.free⟩
    rw [htake.log_eq, hbusy]
  | data | junk =>
    cases hop
    exact ⟨t, ⟨hk, hflags, hbusy⟩, hpre _⟩
  | setData b d =>
    cases hop
    exact ⟨t, ⟨hk, HasFlags.logFlags hflags (hflags.flags.setData hpre.1 d) rfl, hbusy⟩, hpre.2⟩
  | logWrite b =>
    obtain ⟨hm, hk'⟩ := onLog_ok hop
    obtain ⟨hflags', hin, hin'⟩ := (flags_logWrite hflags hpre.1).ok hm
    rw [hbusy] at hin
    exact ⟨t, ⟨hk'.trans hk, hflags', hin'.trans hin.symm⟩, hpre.2 hin⟩
  | brelse c =>
    obtain ⟨hm, hk'⟩ := onLog_ok hop
    obtain ⟨hf', hlog, -⟩ := (flags_bufcacheRelease hflags.flags hpre.1).ok hm
    refine ⟨{ t with held := update t.held c false },
      ⟨hk'.trans hk, HasFlags.logFlags hflags hf' hlog, ?_⟩, hpre.2⟩
    rw [hlog, hbusy]
  | beginTrans =>
    obtain ⟨hm, hk'⟩ := onLog_ok hop
    obtain ⟨hflags', hidle, hin⟩ := (flags_beginTrans hflags).ok hm
    exact ⟨{ t with busy := true }, ⟨hk'.trans hk, hflags', hin⟩, hpre (hbusy.symm.trans hidle)⟩
  | commitTrans =>
    obtain ⟨hm, hk'⟩ := onLog_ok hop
    obtain ⟨hflags', hidle⟩ := (flags_commitTrans hflags).ok hm
    exact ⟨{ t with busy := false }, ⟨hk'.trans hk, hflags', hidle⟩, hpre⟩
  | logInit =>
    obtain ⟨hm, hk'⟩ := onLog_ok hop
    obtain ⟨hflags', hidle⟩ := (flags_logInit hflags (hbusy.trans hpre.1)).ok hm
    exact ⟨t, ⟨hk'.trans hk, hflags', hidle.trans hpre.1.symm⟩, hpre.2⟩
  | mem f =>
    obtain ⟨k', hf, rfl⟩ := handler_mem hop
    rw [hk] at hf
    exact ⟨{ t with k := k' }, ⟨rfl, hflags, hbusy⟩, hpre b k' hf⟩
  | note e =>
    cases hop
    exact ⟨t, ⟨hk, hflags, hbusy⟩, hpre⟩

/-! ### Ledgers -/

/-- What the functions of the file system hold. -/
@[ext] structure Ledger where
  ref : ℕ → ℕ
  lock : ℕ → Bool
  file : ℕ → File
  openfiles : ℕ → ℕ → Option ℕ
  cwd : ℕ → ℕ
  held : ℕ → Bool
  busy : Bool

namespace Ledger

/-- One more reference to slot `ip`. -/
def addRef (L : Ledger) (ip : ℕ) : Ledger :=
  { L with ref := fun i => if i = ip then L.ref i + 1 else L.ref i }

/-- Slot `ip` is locked. -/
def acquire (L : Ledger) (ip : ℕ) : Ledger := { L with lock := update L.lock ip true }

/-- Buffer `b` is held. -/
def hold (L : Ledger) (b : ℕ) : Ledger := { L with held := update L.held b true }

def setFile (L : Ledger) (f : ℕ) (x : File) : Ledger :=
  { L with file := update L.file f x }

/-- `f->off`. -/
def setOff (L : Ledger) (f off : ℕ) : Ledger := L.setFile f { L.file f with off := off }

def setOpenfiles (L : Ledger) (pid fd : ℕ) (f : Option ℕ) : Ledger :=
  { L with openfiles := update L.openfiles pid (update (L.openfiles pid) fd f) }

def setCwd (L : Ledger) (pid ip : ℕ) : Ledger := { L with cwd := update L.cwd pid ip }

/-- A locked slot has a reference. -/
def Ok (L : Ledger) : Prop := ∀ i, L.lock i = true → 0 < L.ref i

variable {L : Ledger} {ip j b : ℕ}

@[simp] theorem addRef_ref_self : (L.addRef ip).ref ip = L.ref ip + 1 := by simp [addRef]

theorem addRef_ref_pos : 0 < (L.addRef ip).ref ip := by
  rw [addRef_ref_self]
  exact Nat.succ_pos _

theorem addRef_ref_other (h : j ≠ ip) : (L.addRef ip).ref j = L.ref j := by simp [addRef, h]

theorem le_addRef_ref : L.ref j ≤ (L.addRef ip).ref j := by
  unfold addRef
  dsimp only
  split <;> omega

theorem addRef_comm : (L.addRef ip).addRef j = (L.addRef j).addRef ip := by
  ext i <;> simp only [addRef]
  split_ifs <;> rfl

@[simp] theorem acquire_lock_self : (L.acquire ip).lock ip = true := by simp [acquire]

theorem acquire_lock_other (h : j ≠ ip) : (L.acquire ip).lock j = L.lock j := by simp [acquire, h]

@[simp] theorem hold_held_self : (L.hold b).held b = true := by simp [hold]

theorem Ok.addRef (h : L.Ok) : (L.addRef ip).Ok := fun i hi => (h i hi).trans_le le_addRef_ref

theorem Ok.acquire (h : L.Ok) (hip : 0 < L.ref ip) : (L.acquire ip).Ok := by
  intro i hi
  by_cases he : i = ip
  · rw [he]
    exact hip
  · rw [acquire_lock_other he] at hi
    exact h i hi

@[simp] theorem setOff_self {f : ℕ} : L.setOff f (L.file f).off = L := by
  unfold setOff setFile
  rw [update_eq_self]

theorem setOff_setOff {f off off' : ℕ} : (L.setOff f off).setOff f off' = L.setOff f off' := by
  simp [setOff, setFile]

/-- A reference that is there can be taken for one that was added. -/
theorem exists_addRef (hok : L.Ok) (h : 0 < L.ref ip) (hlock : L.lock ip = false) :
    ∃ L0 : Ledger, L0.Ok ∧ L = L0.addRef ip := by
  refine ⟨{ L with ref := fun i => if i = ip then L.ref i - 1 else L.ref i }, fun i hi => ?_, ?_⟩
  · have hne : i ≠ ip := fun he => by
      have hi : L.lock i = true := hi
      rw [he, hlock] at hi
      cases hi
    simp only [if_neg hne]
    exact hok i hi
  · ext i <;> simp only [addRef]
    split_ifs with hi
    · rw [hi]
      omega
    · rfl

end Ledger

/-- The state has the ledger `L`; slots in use belong to the root drive. -/
structure Core.Is (t : Core) (L : Ledger) : Prop where
  ref : ∀ i, (t.k.inode i).ref = L.ref i
  lock : ∀ i, (t.k.inode i).busy = L.lock i
  drive : ∀ i, 0 < L.ref i → (t.k.inode i).dev = rootdev
  file : t.k.file = L.file
  openfiles : t.k.openfiles = L.openfiles
  cwd : t.k.cwd = L.cwd
  held : t.held = L.held
  busy : t.busy = L.busy
  ok : L.Ok

/-- From the ledger `L`, every run of `m` that returns does so with `Q`. -/
def Does {α : Type} (L : Ledger) (m : FsM α) (Q : α → Ledger → Prop) : Prop :=
  ∀ t : Core, t.Is L → Prog.Wp ledger m (fun a t' => ∃ L', t'.Is L' ∧ Q a L') t

/-- `m` leaves the ledger as it is. -/
def Same {α : Type} (L : Ledger) (m : FsM α) : Prop := Does L m fun _ L' => L' = L

section Does

variable {α β : Type} {L L' : Ledger} {m m' : FsM α} {f : α → FsM β} {Q Q' : α → Ledger → Prop}
  {R : β → Ledger → Prop}

theorem Does.mono (h : Does L m Q') (hQ : ∀ a L', L'.Ok → Q' a L' → Q a L') : Does L m Q :=
  fun t ht => (h t ht).mono fun a _ ⟨L', ht', ha⟩ => ⟨L', ht', hQ a L' ht'.ok ha⟩

theorem Does.bind (h : Does L m Q) (hf : ∀ a L', L'.Ok → Q a L' → Does L' (f a) R) :
    Does L (m >>= f) R :=
  fun t ht => (h t ht).bind fun a t' ⟨L', ht', ha⟩ => hf a L' ht'.ok ha t' ht'

/-- A part that leads to the ledger `L'`, and the rest. -/
theorem Does.to (h : Does L m fun _ M => M = L') (hf : ∀ a, Does L' (f a) R) : Does L (m >>= f) R :=
  h.bind fun a M _ hM => by
    subst hM
    exact hf a

theorem Same.bind (h : Same L m) (hf : ∀ a, Does L (f a) R) : Does L (m >>= f) R := Does.to h hf

theorem does_pure {a : α} (h : Q a L) : Does L (pure a) Q := fun _ ht => ⟨L, ht, h⟩

theorem same_pure (a : α) : Same L (pure a : FsM α) := does_pure rfl

theorem Does.ite {c : Prop} [Decidable c] (h : c → Does L m Q) (h' : ¬ c → Does L m' Q) :
    Does L (if c then m else m') Q := by
  split
  · rename_i hc
    exact h hc
  · rename_i hc
    exact h' hc

theorem Same.when {c : Prop} [Decidable c] {m : FsM PUnit} (h : c → Same L m) :
    Same L (Prog.when c m) := Does.ite h fun _ => same_pure _

/-- A ledger that no state has is of no interest. -/
theorem Does.of_ok (h : L.Ok → Does L m Q) : Does L m Q := fun t ht => h ht.ok t ht

theorem same_forRange {body : ℕ → FsM PUnit} (h : ∀ i, Same L (body i)) (n a : ℕ) :
    Same L (forRange body n a) := by
  induction n generalizing a with
  | zero => exact same_pure _
  | succ n ih => exact (h a).bind fun _ => ih (a + 1)

theorem does_readMem (g : Kmem → α) :
    Does L (readMem g) fun b L' => L' = L ∧ ∃ t : Core, t.Is L ∧ b = g t.k := by
  intro t ht b k' hg
  cases hg
  exact ⟨L, ht, rfl, t, ht, rfl⟩

theorem does_critical {g : Kmem → Except Stop (α × Kmem)}
    (h : ∀ t : Core, t.Is L → ∀ b k', g t.k = .ok (b, k') →
      ∃ L', Core.Is { t with k := k' } L' ∧ Q b L') : Does L (critical g) Q := h

theorem does_modifyMem {g : Kmem → Kmem} (h : ∀ t : Core, t.Is L → Core.Is { t with k := g t.k } L') :
    Does L (modifyMem g) fun _ L'' => L'' = L' := by
  intro t ht b k' hg
  cases hg
  exact ⟨L', h t ht, rfl⟩

theorem does_kernPanic (msg : String) : Does L (kernPanic msg : FsM α) Q := nofun

theorem does_diverge : Does L (diverge : FsM α) Q := nofun

theorem same_note (e : Event) : Same L (note e) := fun _ ht => ⟨L, ht, rfl⟩

theorem same_junk : Same L junk := fun _ ht _ => ⟨L, ht, rfl⟩

/-- A buffer is taken, and the rest goes on with it. -/
theorem Does.taking {dev sector : ℕ} {f : ℕ → FsM β} (hdev : dev = rootdev)
    (hf : ∀ b, L.held b = false → Does (L.hold b) (f b) R) :
    Does L (bufcacheRead dev sector >>= f) R := by
  intro t ht
  refine wp_perform_bind.mpr ⟨hdev, fun b hb => ?_⟩
  rw [ht.held] at hb
  refine hf b hb _ { ht with held := ?_, ok := ht.ok }
  show update t.held b true = _
  rw [ht.held]
  rfl

variable {b : ℕ}

/-- A buffer is given back, and the rest goes on without it. -/
theorem Does.giving {f : PUnit → FsM β} (hb : L.held b = false)
    (hf : Does L (f ⟨⟩) R) : Does (L.hold b) (bufcacheRelease b >>= f) R := by
  intro t ht
  refine wp_perform_bind.mpr ⟨?_, hf _ { ht with held := ?_, ok := ht.ok }⟩
  · rw [ht.held]
    exact Ledger.hold_held_self
  · show update t.held b false = _
    rw [ht.held]
    exact update_release hb

theorem does_bufcacheRelease (hb : L.held b = false) :
    Does (L.hold b) (bufcacheRelease b) fun _ L' => L' = L := by
  have h := Does.giving (R := fun _ L' => L' = L) hb (does_pure (a := PUnit.unit) rfl)
  exact h

theorem same_bufData (b : ℕ) : Same L (bufData b) := fun _ ht _ => ⟨L, ht, rfl⟩

theorem same_setBufData (hb : L.held b = true) (data : Block) : Same L (setBufData b data) :=
  fun t ht => ⟨by rw [ht.held, hb], L, ht, rfl⟩

theorem same_logWrite (hb : L.held b = true) : Same L (logWrite b) :=
  fun t ht => ⟨by rw [ht.held, hb], fun _ => ⟨L, ht, rfl⟩⟩

/-- A held buffer is changed and logged, and the rest goes on. -/
theorem Does.logging {data : Block} {f : PUnit → FsM β} (hf : Does (L.hold b) (f ⟨⟩) R) :
    Does (L.hold b) (setBufData b data >>= fun _ => logWrite b >>= f) R :=
  (same_setBufData Ledger.hold_held_self _).bind fun _ =>
    (same_logWrite Ledger.hold_held_self).bind fun _ => hf

/-- A transaction begins, if there is none. -/
theorem Does.beginning {f : PUnit → FsM β}
    (hf : L.busy = false → Does { L with busy := true } (f ⟨⟩) R) :
    Does L (beginTrans >>= f) R := by
  intro t ht
  refine wp_perform_bind.mpr fun hb => ?_
  exact hf (ht.busy.symm.trans hb) _ { ht with busy := rfl, ok := ht.ok }

theorem does_commitTrans : Does L commitTrans fun _ L' => L' = { L with busy := false } :=
  fun _ ht => ⟨{ L with busy := false }, { ht with busy := rfl, ok := ht.ok }, rfl⟩

theorem same_logInit (hb : L.busy = false) : Same L logInit :=
  fun _ ht => ⟨ht.busy.trans hb, L, ht, rfl⟩

end Does

/-! ### Blocks and inodes -/

section Inodes

variable {L : Ledger}

theorem does_getInode (ip : ℕ) : Does L (getInode ip) fun x L' => L' = L ∧ x.ref = L.ref ip ∧
    x.busy = L.lock ip ∧ (0 < L.ref ip → x.dev = rootdev) := by
  refine (does_readMem _).mono ?_
  rintro x L' - ⟨hL', t, ht, rfl⟩
  exact ⟨hL', ht.ref ip, ht.lock ip, ht.drive ip⟩

variable {ip : ℕ} {β : Type}

/-- A slot with a reference is read, and the rest goes on with it. -/
theorem Does.reading {f : Inode → FsM β} {R : β → Ledger → Prop}
    (hip : 0 < L.ref ip) (hf : ∀ x : Inode, x.dev = rootdev → Does L (f x) R) :
    Does L (getInode ip >>= f) R := by
  refine (does_getInode ip).bind fun x L' _ hx => ?_
  rw [hx.1]
  exact hf x (hx.2.2.2 hip)

/-- An assignment to a slot: the ledger changes at this slot only. -/
theorem Core.Is.setInode {t : Core} (ht : t.Is L) (ref : ℕ → ℕ) (lock : ℕ → Bool) {x : Inode}
    (href : ∀ i, i ≠ ip → ref i = L.ref i) (hlock : ∀ i, i ≠ ip → lock i = L.lock i)
    (hx : x.ref = ref ip) (hx' : x.busy = lock ip) (hdev : 0 < ref ip → x.dev = rootdev)
    (hok : lock ip = true → 0 < ref ip) :
    Core.Is { t with k := t.k.setInode ip x } { L with ref := ref, lock := lock } := by
  have hself := t.k.setInode_self ip x
  have hother : ∀ i, i ≠ ip → (t.k.setInode ip x).inode i = t.k.inode i :=
    fun i hi => t.k.setInode_other x hi
  refine { ht with ref := fun i => ?_, lock := fun i => ?_, drive := fun i hi => ?_, ok := fun i hi => ?_ }
  · by_cases he : i = ip
    · rw [he, hself, hx]
    · rw [hother i he]
      exact (ht.ref i).trans (href i he).symm
  · by_cases he : i = ip
    · rw [he, hself, hx']
    · rw [hother i he]
      exact (ht.lock i).trans (hlock i he).symm
  · by_cases he : i = ip
    · rw [he, hself]
      exact hdev (he ▸ hi)
    · rw [hother i he]
      exact ht.drive i (by rw [← href i he]; exact hi)
  · by_cases he : i = ip
    · rw [he]
      exact hok (he ▸ hi)
    · show 0 < ref i
      rw [href i he]
      exact ht.ok i (by rw [← hlock i he]; exact hi)

/-- One more reference, to a slot of the root drive. -/
theorem Core.Is.addRef {t : Core} (ht : t.Is L) {x : Inode} (hx : x.ref = L.ref ip + 1)
    (hx' : x.busy = L.lock ip) (hdev : x.dev = rootdev) :
    Core.Is { t with k := t.k.setInode ip x } (L.addRef ip) :=
  ht.setInode (L.addRef ip).ref L.lock (fun _ hi => Ledger.addRef_ref_other hi) (fun _ _ => rfl)
    (hx.trans Ledger.addRef_ref_self.symm) hx' (fun _ => hdev) fun _ => Ledger.addRef_ref_pos

/-- An assignment that keeps the count, the lock and the drive. -/
theorem same_setInode {g : Inode → Inode}
    (hg : ∀ x, (g x).ref = x.ref ∧ (g x).busy = x.busy ∧ (g x).dev = x.dev) :
    Same L (modifyMem fun k => k.setInode ip (g (k.inode ip))) :=
  does_modifyMem fun _ ht => ht.setInode _ _ (fun _ _ => rfl) (fun _ _ => rfl)
    ((hg _).1.trans (ht.ref ip)) ((hg _).2.1.trans (ht.lock ip))
    (fun h => (hg _).2.2.trans (ht.drive ip h)) (ht.ok ip)

theorem same_modifyInode (ip : ℕ) (g : Dinode → Dinode) : Same L (modifyInode ip g) :=
  same_setInode (g := fun x => { x with d := g x.d }) fun _ => ⟨rfl, rfl, rfl⟩

theorem same_readSuperblock : Same L (readSuperblock rootdev) :=
  Does.taking rfl fun _ hb => (same_bufData _).bind fun _ => Does.giving hb (does_pure rfl)

theorem same_blockZero (bno : ℕ) : Same L (blockZero rootdev bno) :=
  Does.taking rfl fun _ hb => Does.logging (does_bufcacheRelease hb)

theorem same_blockAllocFrom (sb : Superblock) (k b : ℕ) : Same L (blockAllocFrom rootdev sb k b) := by
  induction k generalizing b with
  | zero => exact (same_note _).bind fun _ => same_junk
  | succ k ih =>
    refine Does.taking rfl fun bp hbp => (same_bufData _).bind fun data => ?_
    cases data.freeBitFrom b sb.size bpb 0 with
    | none => exact Does.giving hbp (ih _)
    | some bi =>
      refine (Same.when fun _ => same_note _).bind fun _ => ?_
      exact Does.logging (Does.giving hbp ((same_blockZero _).bind fun _ => same_pure _))

theorem same_blockAlloc : Same L (blockAlloc rootdev) :=
  (same_note _).bind fun _ => same_readSuperblock.bind fun _ => same_blockAllocFrom _ _ _

theorem same_blockFree (b : ℕ) : Same L (blockFree rootdev b) := by
  refine same_readSuperblock.bind fun _ => Does.taking rfl fun bp hbp => ?_
  refine (same_bufData _).bind fun _ => Does.ite (fun _ => does_kernPanic _) fun _ => ?_
  exact Does.logging (does_bufcacheRelease hbp)

theorem does_inodeGet (inum : ℕ) : Does L (inodeGet rootdev inum) fun ip L' => L' = L.addRef ip := by
  refine does_critical fun t ht ip k' hget => ⟨L.addRef ip, ?_, rfl⟩
  rcases (Kmem.inodeGet_cases hget).2 with ⟨hpos, hdev, -, rfl⟩ | ⟨-, hfree, rfl⟩
  · exact ht.addRef (by rw [← ht.ref ip]) (ht.lock ip) hdev
  · -- an empty slot is not locked
    rw [ht.ref ip] at hfree
    refine ht.addRef (by rw [hfree]) ?_ rfl
    cases hlock : L.lock ip with
    | false => rfl
    | true => exact absurd (ht.ok ip hlock) (by omega)

theorem does_inodeAllocFrom (type k inum : ℕ) :
    Does L (inodeAllocFrom rootdev type k inum) fun ip L' => L' = L.addRef ip := by
  induction k generalizing inum with
  | zero => exact does_kernPanic _
  | succ k ih =>
    refine Does.taking rfl fun bp hbp => (same_bufData _).bind fun _ => Does.ite (fun _ => ?_) fun _ => ?_
    · exact Does.logging (Does.giving hbp (does_inodeGet _))
    · exact Does.giving hbp (ih _)

theorem does_inodeAlloc (type : ℕ) : Does L (inodeAlloc rootdev type) fun ip L' => L' = L.addRef ip :=
  same_readSuperblock.bind fun _ => does_inodeAllocFrom _ _ _

theorem same_inodeUpdate (hip : 0 < L.ref ip) : Same L (inodeUpdate ip) := by
  refine Does.reading hip fun x hx => Does.taking hx fun bp hbp => (same_bufData _).bind fun _ => ?_
  refine Does.reading (L := L.hold bp) hip fun y _ => ?_
  exact Does.logging (does_bufcacheRelease hbp)

theorem does_inodeDup (hip : 0 < L.ref ip) : Does L (inodeDup ip) fun _ L' => L' = L.addRef ip :=
  does_modifyMem fun _ ht => ht.addRef (by rw [← ht.ref ip]) (ht.lock ip) (ht.drive ip hip)

/-- A locked slot was free, and has a reference. -/
theorem does_inodeLock (ip : ℕ) : Does L (inodeLock ip) fun _ L' =>
    L' = L.acquire ip ∧ 0 < L.ref ip ∧ L.lock ip = false := by
  have htest : Does L (critical fun k => if (k.inode ip).ref < 1 then .error (.panic "inode_lock")
      else .ok (PUnit.unit, k)) fun _ L' => L' = L ∧ 0 < L.ref ip := by
    refine does_critical fun t ht b k' hg => ⟨L, ?_⟩
    split at hg
    · cases hg
    · rename_i hpos
      cases hg
      exact ⟨ht, rfl, by rw [← ht.ref ip]; omega⟩
  refine htest.bind fun _ L' _ hL' => ?_
  obtain ⟨rfl, hpos⟩ := hL'
  have htake : Does L' (critical fun k => if (k.inode ip).busy then .error .asleep
      else .ok (PUnit.unit, k.setInode ip { k.inode ip with busy := true }))
      fun _ L'' => L'' = L'.acquire ip ∧ L'.lock ip = false := by
    refine does_critical fun t ht b k' hg => ⟨L'.acquire ip, ?_⟩
    split at hg
    · cases hg
    · rename_i hfree
      cases hg
      refine ⟨ht.setInode L'.ref (L'.acquire ip).lock (fun _ _ => rfl)
        (fun i hi => Ledger.acquire_lock_other hi) (ht.ref ip) Ledger.acquire_lock_self.symm
        (ht.drive ip) fun _ => hpos, rfl, ?_⟩
      rw [← ht.lock ip]
      simpa using hfree
  refine htake.bind fun _ L'' _ hL'' => ?_
  obtain ⟨rfl, hfree⟩ := hL''
  have hread : Same (L'.acquire ip) (do
      let i ← getInode ip
      Prog.when (i.valid = false) do
        let bp ← bufcacheRead i.dev (iblock i.inum)
        let data ← bufData bp
        modifyInode ip fun _ => data.dinode (i.inum % ipb)
        bufcacheRelease bp
        modifyMem fun k => k.setInode ip { k.inode ip with valid := true }
        let i ← getInode ip
        Prog.when (i.d.type = 0) (kernPanic "inode_lock: no type")) := by
    refine Does.reading (L := L'.acquire ip) hpos fun x hx => Same.when fun _ => ?_
    refine Does.taking hx fun bp hbp => (same_bufData _).bind fun _ => ?_
    refine (same_modifyInode _ _).bind fun _ => Does.giving hbp ?_
    have hvalid : Same (L'.acquire ip)
        (modifyMem fun k => k.setInode ip { k.inode ip with valid := true }) :=
      same_setInode (g := fun x => { x with valid := true }) fun _ => ⟨rfl, rfl, rfl⟩
    refine hvalid.bind fun _ => Does.reading (L := L'.acquire ip) hpos fun y _ => ?_
    exact Same.when fun _ => does_kernPanic _
  exact hread.mono fun _ _ _ h => ⟨h, hpos, hfree⟩

theorem does_inodeUnlock (hlock : L.lock ip = false) :
    Does (L.acquire ip) (inodeUnlock ip) fun _ L' => L' = L := by
  refine does_critical fun t ht b k' hg => ⟨L, ?_, rfl⟩
  split at hg
  · cases hg
  · cases hg
    have h := ht.setInode L.ref L.lock (x := { t.k.inode ip with busy := false })
      (fun _ _ => rfl) (fun i hi => (Ledger.acquire_lock_other hi).symm) (ht.ref ip) hlock.symm
      (ht.drive ip) fun h => by
        rw [hlock] at h
        cases h
    exact h

theorem same_bmapAddr (hip : 0 < L.ref ip) (i : ℕ) : Same L (bmapAddr ip i) := by
  refine Does.reading hip fun x hx => Does.ite (fun _ => ?_) fun _ => same_pure _
  rw [hx]
  exact same_blockAlloc.bind fun _ => (same_modifyInode _ _).bind fun _ => same_pure _

theorem same_bmap (hip : 0 < L.ref ip) (bn : ℕ) : Same L (bmap ip bn) := by
  refine Does.ite (fun _ => same_bmapAddr hip _) fun _ =>
    Does.ite (fun _ => ?_) fun _ => does_kernPanic _
  refine (same_bmapAddr hip _).bind fun addr => Does.reading hip fun x hx => ?_
  refine Does.taking hx fun bp hbp => (same_bufData _).bind fun a => Does.ite (fun _ => ?_) fun _ => ?_
  · rw [hx]
    exact same_blockAlloc.bind fun addr => (same_bufData _).bind fun _ =>
      Does.logging (Does.giving hbp (same_pure _))
  · exact Does.giving hbp (same_pure _)

theorem same_inodeTrunc (hip : 0 < L.ref ip) : Same L (inodeTrunc ip) := by
  have hdirect : ∀ i, Same L (do
      let x ← getInode ip
      Prog.when (x.d.addr i ≠ 0) do
        blockFree x.dev (x.d.addr i)
        modifyInode ip fun d => d.setAddr i 0) := fun i =>
    Does.reading hip fun x hx => Same.when fun _ => by
      rw [hx]
      exact (same_blockFree _).bind fun _ => same_modifyInode _ _
  refine (same_forRange hdirect _ _).bind fun _ => Does.reading hip fun x hx => ?_
  refine Same.bind (Same.when fun _ => ?_) fun _ =>
    (same_modifyInode _ _).bind fun _ => same_inodeUpdate hip
  refine Does.taking hx fun bp hbp => ?_
  refine (same_forRange (fun j => ?_) _ _).bind fun _ => Does.giving hbp ?_
  · refine (same_bufData _).bind fun a => Same.when fun _ => ?_
    rw [hx]
    exact same_blockFree _
  · refine Does.reading hip fun y hy => ?_
    rw [hy]
    exact (same_blockFree _).bind fun _ => same_modifyInode _ _

/-- `inode_put` drops a reference, and frees the inode only with the last one. -/
theorem does_inodePut (hok : L.Ok) : Does (L.addRef ip) (inodePut ip) fun _ L' => L' = L := by
  have hstep : Does (L.addRef ip) (critical fun k => k.inodePut ip) fun last L' =>
      (last = true → L' = (L.addRef ip).acquire ip ∧ L.ref ip = 0) ∧ (last = false → L' = L) := by
    refine does_critical fun t ht last k' hput => ?_
    have href := ht.ref ip
    rw [Ledger.addRef_ref_self] at href
    rcases Kmem.inodePut_cases hput with ⟨rfl, ⟨hone, -, -⟩, hfree, rfl⟩ | ⟨rfl, -, rfl⟩
    · have hzero : L.ref ip = 0 := by omega
      refine ⟨(L.addRef ip).acquire ip, ?_, fun _ => ⟨rfl, hzero⟩, nofun⟩
      exact ht.setInode (L.addRef ip).ref ((L.addRef ip).acquire ip).lock (fun _ _ => rfl)
        (fun i hi => Ledger.acquire_lock_other hi) (ht.ref ip) Ledger.acquire_lock_self.symm
        (ht.drive ip) fun _ => Ledger.addRef_ref_pos
    · refine ⟨L, ?_, nofun, fun _ => rfl⟩
      have h := ht.setInode L.ref L.lock (x := { t.k.inode ip with ref := (t.k.inode ip).ref - 1 })
        (fun i hi => (Ledger.addRef_ref_other hi).symm) (fun _ _ => rfl)
        (by show (t.k.inode ip).ref - 1 = L.ref ip; omega) (ht.lock ip)
        (fun _ => ht.drive ip Ledger.addRef_ref_pos) (hok ip)
      exact h
  refine hstep.bind fun last L' _ hL' => ?_
  cases last with
  | false =>
    rw [hL'.2 rfl]
    exact same_pure _
  | true =>
    obtain ⟨rfl, hzero⟩ := hL'.1 rfl
    have hpos : 0 < ((L.addRef ip).acquire ip).ref ip := Ledger.addRef_ref_pos (L := L)
    have hfree : L.lock ip = false := by
      cases hlock : L.lock ip with
      | false => rfl
      | true => exact absurd (hok ip hlock) (by omega)
    refine (same_note _).bind fun _ => (same_inodeTrunc hpos).bind fun _ => ?_
    refine (same_modifyInode _ _).bind fun _ => (same_inodeUpdate hpos).bind fun _ => ?_
    refine does_modifyMem fun t ht => ?_
    have href := ht.ref ip
    have h := ht.setInode L.ref L.lock
      (x := { t.k.inode ip with busy := false, valid := false, ref := (t.k.inode ip).ref - 1 })
      (fun i hi => (Ledger.addRef_ref_other hi).symm)
      (fun i hi => (Ledger.acquire_lock_other (L := L.addRef ip) hi).symm)
      (by
        show (t.k.inode ip).ref - 1 = L.ref ip
        rw [href]
        show (L.addRef ip).ref ip - 1 = _
        rw [Ledger.addRef_ref_self]
        omega) hfree.symm
      (fun h => by omega) (fun h => by rw [hfree] at h; cases h)
    exact h

theorem does_inodeUnlockput (hok : L.Ok) (hlock : L.lock ip = false) :
    Does ((L.addRef ip).acquire ip) (inodeUnlockput ip) fun _ L' => L' = L :=
  (does_inodeUnlock (L := L.addRef ip) hlock).to fun _ => does_inodePut hok

/-- `inode_put`, and the rest of the call. -/
theorem Does.putting {f : PUnit → FsM β} {R : β → Ledger → Prop} (hok : L.Ok)
    (hf : Does L (f ⟨⟩) R) : Does (L.addRef ip) (inodePut ip >>= f) R :=
  (does_inodePut hok).to fun _ => hf

/-- `inode_unlockput`, and the rest of the call. -/
theorem Does.unlockputting {f : PUnit → FsM β} {R : β → Ledger → Prop}
    (hok : L.Ok) (hlock : L.lock ip = false) (hf : Does L (f ⟨⟩) R) :
    Does ((L.addRef ip).acquire ip) (inodeUnlockput ip >>= f) R :=
  (does_inodeUnlockput hok hlock).to fun _ => hf

/-- `inode_lock`, and the rest of the call. -/
theorem Does.locking {f : PUnit → FsM β} {R : β → Ledger → Prop}
    (hf : 0 < L.ref ip → L.lock ip = false → Does (L.acquire ip) (f ⟨⟩) R) :
    Does L (inodeLock ip >>= f) R :=
  (does_inodeLock ip).bind fun _ L' _ hL' => by
    rw [hL'.1]
    exact hf hL'.2.1 hL'.2.2

/-- `inode_unlock`, and the rest of the call. -/
theorem Does.unlocking {f : PUnit → FsM β} {R : β → Ledger → Prop}
    (hlock : L.lock ip = false) (hf : Does L (f ⟨⟩) R) :
    Does (L.acquire ip) (inodeUnlock ip >>= f) R :=
  (does_inodeUnlock hlock).to fun _ => hf

theorem same_inodeReadLoop (hip : 0 < L.ref ip) (k off rem : ℕ) (acc : Bytes) :
    Same L (inodeReadLoop ip k off rem acc) := by
  induction k generalizing off rem acc with
  | zero => exact same_pure _
  | succ k ih =>
    refine Does.ite (fun _ => same_pure _) fun _ => ?_
    refine (same_bmap hip _).bind fun _ => Does.reading hip fun x hx => ?_
    exact Does.taking hx fun bp hbp => (same_bufData _).bind fun _ => Does.giving hbp (ih _ _ _)

theorem same_inodeRead (hip : 0 < L.ref ip) (off n : ℕ) : Same L (inodeRead ip off n) := by
  refine Does.reading hip fun x _ => Does.ite (fun _ => ?_) fun _ => ?_
  · exact Does.ite (fun _ => same_pure _) fun _ => does_kernPanic _
  · exact Does.ite (fun _ => same_pure _) fun _ =>
      (same_inodeReadLoop hip _ _ _ _).bind fun _ => same_pure _

theorem same_inodeWriteLoop (hip : 0 < L.ref ip) (k off : ℕ) (src : Bytes) :
    Same L (inodeWriteLoop ip k off src) := by
  induction k generalizing off src with
  | zero => exact same_pure _
  | succ k ih =>
    refine Does.ite (fun _ => same_pure _) fun _ => ?_
    refine (same_bmap hip _).bind fun _ => Does.reading hip fun x hx => ?_
    refine Does.taking hx fun bp hbp => (same_bufData _).bind fun _ => ?_
    exact Does.logging (Does.giving hbp (ih _ _))

theorem same_inodeWrite (hip : 0 < L.ref ip) (src : Bytes) (off : ℕ) :
    Same L (inodeWrite ip src off) := by
  refine Does.reading hip fun x _ => Does.ite (fun _ => ?_) fun _ => ?_
  · exact Does.ite (fun _ => same_pure _) fun _ => does_kernPanic _
  refine Does.ite (fun _ => same_pure _) fun _ => Does.ite (fun _ => same_pure _) fun _ => ?_
  refine (same_inodeWriteLoop hip _ _ _).bind fun _ => Does.reading hip fun y _ => ?_
  refine Same.bind (Same.when fun _ => ?_) fun _ => same_pure _
  exact (same_modifyInode _ _).bind fun _ => same_inodeUpdate hip

end Inodes

/-! ### Directories and paths -/

section Paths

variable {L : Ledger}

variable {dp pid : ℕ}

theorem same_readDirent (hdp : 0 < L.ref dp) (off : ℕ) (msg : String) :
    Same L (readDirent dp off msg) := by
  refine (same_inodeRead hdp _ _).bind fun r => ?_
  cases r with
  | none => exact does_kernPanic _
  | some bytes => exact Does.ite (fun _ => same_pure _) fun _ => does_kernPanic _

/-- A lookup returns with a reference to what it has found. -/
def Found {γ : Type} (L : Ledger) (r : Option (ℕ × γ)) (L' : Ledger) : Prop :=
  match r with
  | none => L' = L
  | some (ip, _) => L' = L.addRef ip

theorem Does.found {β γ : Type} {m : FsM (Option (ℕ × γ))} {f : Option (ℕ × γ) → FsM β}
    {R : β → Ledger → Prop} (h : Does L m (Found L)) (hnone : Does L (f none) R)
    (hsome : ∀ ip x, Does (L.addRef ip) (f (some (ip, x))) R) : Does L (m >>= f) R := by
  refine h.bind fun r L' _ hL' => ?_
  rcases r with _ | ⟨ip, x⟩
  · obtain rfl : L' = L := hL'
    exact hnone
  · obtain rfl : L' = L.addRef ip := hL'
    exact hsome ip x

theorem does_dirLookupFrom (hdp : 0 < L.ref dp) (name : Bytes) (k off : ℕ) :
    Does L (dirLookupFrom dp name k off) (Found L) := by
  induction k generalizing off with
  | zero => exact does_diverge
  | succ k ih =>
    refine Does.reading hdp fun x hx => Does.ite (fun _ => ?_) fun _ => does_pure rfl
    refine (same_readDirent hdp _ _).bind fun de => Does.ite (fun _ => ih _) fun _ => ?_
    refine Does.ite (fun _ => ?_) fun _ => ih _
    rw [hx]
    exact (does_inodeGet _).bind fun ip L' _ hL' => does_pure hL'

theorem does_dirLookup (hdp : 0 < L.ref dp) (name : Bytes) : Does L (dirLookup dp name) (Found L) :=
  Does.reading hdp fun _ _ => Does.ite (fun _ => does_kernPanic _) fun _ =>
    does_dirLookupFrom hdp _ _ _

theorem same_dirFreeFrom (hdp : 0 < L.ref dp) (k off : ℕ) : Same L (dirFreeFrom dp k off) := by
  induction k generalizing off with
  | zero => exact does_diverge
  | succ k ih =>
    refine Does.reading hdp fun x _ => Does.ite (fun _ => ?_) fun _ => same_pure _
    exact (same_readDirent hdp _ _).bind fun de => Does.ite (fun _ => same_pure _) fun _ => ih _

theorem same_dirLink (hdp : 0 < L.ref dp) (name : Bytes) (inum : ℕ) :
    Same L (dirLink dp name inum) := by
  refine Does.of_ok fun hok => (does_dirLookup hdp _).found ?_ fun ip off => ?_
  · refine Does.reading hdp fun x _ => (same_dirFreeFrom hdp _ _).bind fun off => ?_
    exact (same_inodeWrite hdp _ _).bind fun r =>
      Does.ite (fun _ => same_pure _) fun _ => does_kernPanic _
  · exact Does.putting hok (same_pure _)

theorem does_namexFrom (np : Bool) (k ip : ℕ) (path name : Bytes) (hok : L.Ok) :
    Does (L.addRef ip) (namexFrom np k ip path name) (Found L) := by
  induction k generalizing ip path name with
  | zero => exact does_diverge
  | succ k ih =>
    unfold namexFrom
    cases skipelem path with
    | none =>
      exact Does.ite (fun _ => Does.putting hok (does_pure rfl)) fun _ => does_pure rfl
    | some p =>
      obtain ⟨name, path⟩ := p
      have hpos : 0 < ((L.addRef ip).acquire ip).ref ip := Ledger.addRef_ref_pos (L := L)
      refine Does.locking fun _ hlock => Does.reading hpos fun x _ => Does.ite (fun _ => ?_) fun _ => ?_
      · exact Does.unlockputting hok hlock (does_pure rfl)
      refine Does.ite (fun _ => Does.unlocking hlock (does_pure rfl)) fun _ => ?_
      refine (does_dirLookup hpos _).found ?_ fun sub off => ?_
      · exact Does.unlockputting hok hlock (does_pure rfl)
      · have hswap : ((L.addRef ip).acquire ip).addRef sub = ((L.addRef sub).addRef ip).acquire ip := by
          rw [← Ledger.addRef_comm]
          rfl
        rw [hswap]
        exact Does.unlockputting (L := L.addRef sub) hok.addRef hlock (ih sub path name)

theorem does_namex (hcwd : 0 < L.ref (L.cwd pid)) (path : Bytes) (np : Bool) :
    Does L (namex pid path np) (Found L) := by
  refine Does.of_ok fun hok => ?_
  have hstart : Does L (namexStart pid path) fun ip L' => L' = L.addRef ip := by
    refine Does.ite (fun _ => does_inodeGet _) fun _ => ?_
    refine (does_readMem _).bind fun ip L' _ hip => ?_
    obtain ⟨rfl, t, ht, rfl⟩ := hip
    rw [ht.cwd]
    exact (does_inodeDup hcwd).to fun _ => does_pure rfl
  refine hstart.bind fun ip L' _ hL' => ?_
  rw [hL']
  exact does_namexFrom np _ ip path [] hok

/-- `namei`, and the rest of the call. -/
theorem Does.naming {β : Type} {path : Bytes} {f : Option ℕ → FsM β} {R : β → Ledger → Prop}
    (hcwd : 0 < L.ref (L.cwd pid)) (hnone : Does L (f none) R)
    (hsome : ∀ ip, Does (L.addRef ip) (f (some ip)) R) : Does L (namei pid path >>= f) R := by
  refine Does.bind (Q := fun r L' => Does L' (f r) R) ?_ fun _ _ _ h => h
  exact (does_namex hcwd path false).found (does_pure hnone) fun ip _ => does_pure (hsome ip)

theorem does_nameiparent (hcwd : 0 < L.ref (L.cwd pid)) (path : Bytes) :
    Does L (nameiparent pid path) (Found L) := does_namex hcwd path true

end Paths

end Fs

end Mcertikos
