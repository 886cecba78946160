/-
Between system calls.

When no call is in progress, the counts are exact and nothing is held: the count of an inode
slot is the number of open files and working directories that name it, the count of a file
is the number of descriptors that name it, and no lock, buffer or transaction is left.

* `Kmem.openCount`, `Kmem.cwdCount`, `Kmem.fdCount` — what the counts should be;
* `FsSys.Completes` — one system call, by any process, that returns;
* `quiescent_of_calls` — every state reached from boot by such calls is quiescent.

Design notes: nothing is assumed about the disk or about what a full disk makes
`block_alloc` return.
-/
import Mcertikos.Fs.Ledger
import Mcertikos.Fs.Recovery
import Mcertikos.Fs.Eval

namespace Mcertikos

namespace Fs

open Finset Relation Function Prog Hoare

/-! ### Counting -/

/-- Two predicates that agree except at `a`. -/
theorem card_filter_point {α : Type*} [DecidableEq α] {s : Finset α} {a : α} (ha : a ∈ s)
    {p q : α → Prop} [DecidablePred p] [DecidablePred q] (h : ∀ x ∈ s, x ≠ a → (p x ↔ q x)) :
    (s.filter p).card + (if q a then 1 else 0) = (s.filter q).card + if p a then 1 else 0 := by
  have hrest : (∑ x ∈ s.erase a, if p x then 1 else 0) = ∑ x ∈ s.erase a, if q x then 1 else 0 := by
    refine sum_congr rfl fun x hx => ?_
    rw [mem_erase] at hx
    simp only [h x hx.2 hx.1]
  rw [card_filter, card_filter, ← add_sum_erase _ _ ha,
    ← add_sum_erase s (fun x => if q x then 1 else 0) ha, hrest]
  omega

/-- The number of open files with inode slot `i`. -/
def openCount (file : ℕ → File) (i : ℕ) : ℕ :=
  ((range nfile).filter fun f => 0 < (file f).ref ∧ (file f).ip = some i).card

/-- The number of working directories with inode slot `i`. -/
def cwdCount (cwd : ℕ → ℕ) (i : ℕ) : ℕ := ((range numIds).filter fun pid => cwd pid = i).card

/-- The descriptors of all processes. -/
@[irreducible] def descriptors : Finset (ℕ × ℕ) := range numIds ×ˢ range nofile

variable {fd pid f : ℕ}

theorem mem_descriptors (hpid : pid < numIds) (hfd : fd < nofile) : (pid, fd) ∈ descriptors := by
  unfold descriptors
  rw [mem_product, mem_range, mem_range]
  exact ⟨hpid, hfd⟩

/-- The number of descriptors, of all processes, of file `f`. -/
def fdCount (openfiles : ℕ → ℕ → Option ℕ) (f : ℕ) : ℕ :=
  (descriptors.filter fun x => openfiles x.1 x.2 = some f).card

/-- Replacing a file changes one term of the count. -/
theorem openCount_update (file : ℕ → File) (hf : f < nfile) (x : File) (i : ℕ) :
    openCount (update file f x) i + (if 0 < (file f).ref ∧ (file f).ip = some i then 1 else 0)
      = openCount file i + if 0 < x.ref ∧ x.ip = some i then 1 else 0 := by
  have h := card_filter_point (mem_range.mpr hf)
    (p := fun g => 0 < (update file f x g).ref ∧ (update file f x g).ip = some i)
    (q := fun g => 0 < (file g).ref ∧ (file g).ip = some i) fun g _ hg => by
      rw [update_of_ne hg]
  rw [update_self] at h
  exact h

theorem cwdCount_update (cwd : ℕ → ℕ) (hpid : pid < numIds) (ip i : ℕ) :
    cwdCount (update cwd pid ip) i + (if cwd pid = i then 1 else 0)
      = cwdCount cwd i + if ip = i then 1 else 0 := by
  have h := card_filter_point (mem_range.mpr hpid)
    (p := fun q => update cwd pid ip q = i) (q := fun q => cwd q = i) fun q _ hq => by
      rw [update_of_ne hq]
  rw [update_self] at h
  exact h

theorem fdCount_update (openfiles : ℕ → ℕ → Option ℕ) (hpid : pid < numIds)
    (hfd : fd < nofile) (x : Option ℕ) (f : ℕ) :
    fdCount (update openfiles pid (update (openfiles pid) fd x)) f
        + (if openfiles pid fd = some f then 1 else 0)
      = fdCount openfiles f + if x = some f then 1 else 0 := by
  have h := card_filter_point (mem_descriptors hpid hfd)
    (p := fun y => update openfiles pid (update (openfiles pid) fd x) y.1 y.2 = some f)
    (q := fun y => openfiles y.1 y.2 = some f) fun y _ hy => by
      by_cases h1 : y.1 = pid
      · have h2 : y.2 ≠ fd := fun h2 => hy (Prod.ext h1 h2)
        rw [h1, update_self, update_of_ne h2]
      · rw [update_of_ne h1]
  rw [update_self, update_self] at h
  exact h

theorem cwdCount_pos (cwd : ℕ → ℕ) (hpid : pid < numIds) : 0 < cwdCount cwd (cwd pid) :=
  card_pos.mpr ⟨pid, mem_filter.mpr ⟨mem_range.mpr hpid, rfl⟩⟩

theorem fdCount_pos {openfiles : ℕ → ℕ → Option ℕ} (hpid : pid < numIds)
    (hfd : fd < nofile) (h : openfiles pid fd = some f) : 0 < fdCount openfiles f :=
  card_pos.mpr ⟨(pid, fd), mem_filter.mpr ⟨mem_descriptors hpid hfd, h⟩⟩

theorem openCount_pos {file : ℕ → File} {i : ℕ} (hf : f < nfile) (href : 0 < (file f).ref)
    (hip : (file f).ip = some i) : 0 < openCount file i :=
  card_pos.mpr ⟨f, mem_filter.mpr ⟨mem_range.mpr hf, href, hip⟩⟩

/-! ### Quiet ledgers -/

/-- The ledger between calls. -/
structure Ledger.Quiet (L : Ledger) : Prop where
  ref : ∀ i, L.ref i = openCount L.file i + cwdCount L.cwd i
  file_ref : ∀ f, (L.file f).ref = fdCount L.openfiles f
  opened : ∀ f, 0 < (L.file f).ref → (L.file f).type = .inode ∧ ∃ ip, (L.file f).ip = some ip
  closed : ∀ f, (L.file f).ref = 0 → (L.file f).type = .none
  fd_lt : ∀ pid fd f, L.openfiles pid fd = some f → f < nfile
  lock : ∀ i, L.lock i = false
  held : ∀ b, L.held b = false
  busy : L.busy = false

namespace Ledger.Quiet

variable {L : Ledger}

theorem ok (h : L.Quiet) : L.Ok := fun i hi => by
  rw [h.lock i] at hi
  cases hi

variable {pid f fd ip : ℕ}

theorem cwd_pos (h : L.Quiet) (hpid : pid < numIds) : 0 < L.ref (L.cwd pid) := by
  have := cwdCount_pos L.cwd hpid
  have := h.ref (L.cwd pid)
  omega

/-- A descriptor leads to an open file, and to an inode slot with a reference. -/
theorem of_fd (h : L.Quiet) (hpid : pid < numIds) (hfd : fd < nofile)
    (hf : L.openfiles pid fd = some f) :
    f < nfile ∧ 0 < (L.file f).ref ∧ (L.file f).type = .inode ∧
      ∃ ip, (L.file f).ip = some ip ∧ 0 < L.ref ip := by
  have hlt := h.fd_lt pid fd f hf
  have hpos : 0 < (L.file f).ref := by
    rw [h.file_ref f]
    exact fdCount_pos hpid hfd hf
  obtain ⟨htype, ip, hip⟩ := h.opened f hpos
  have := openCount_pos hlt hpos hip
  have := h.ref ip
  exact ⟨hlt, hpos, htype, ip, hip, by omega⟩

/-- The offsets of open files do not count. -/
theorem setOff (h : L.Quiet) (f off : ℕ) : (L.setOff f off).Quiet := by
  have hfile : ∀ g, ((L.setOff f off).file g).ref = (L.file g).ref ∧
      ((L.setOff f off).file g).ip = (L.file g).ip ∧
      ((L.setOff f off).file g).type = (L.file g).type := by
    intro g
    unfold Ledger.setOff Ledger.setFile
    dsimp only
    by_cases hg : g = f
    · rw [hg, update_self]
      exact ⟨rfl, rfl, rfl⟩
    · rw [update_of_ne hg]
      exact ⟨rfl, rfl, rfl⟩
  refine { h with ref := fun i => ?_, file_ref := fun g => ?_, opened := fun g => ?_, closed := fun g => ?_ }
  · have hcount : openCount (L.setOff f off).file i = openCount L.file i := by
      unfold openCount
      simp only [(hfile _).1, (hfile _).2.1]
    rw [hcount]
    exact h.ref i
  · rw [(hfile g).1]
    exact h.file_ref g
  · rw [(hfile g).1, (hfile g).2.1, (hfile g).2.2]
    exact h.opened g
  · rw [(hfile g).1, (hfile g).2.2]
    exact h.closed g

/-- File `f` becomes `x` and descriptor `fd` becomes `v`, with the counts that go with it. -/
theorem refile (h : L.Quiet) (hpid : pid < numIds) (hfd : fd < nofile)
    (hf : f < nfile) (ref : ℕ → ℕ) {x : File} {v : Option ℕ}
    (href : ∀ i, ref i + (if 0 < (L.file f).ref ∧ (L.file f).ip = some i then 1 else 0)
      = L.ref i + if 0 < x.ref ∧ x.ip = some i then 1 else 0)
    (hfile : ∀ g, (update L.file f x g).ref + (if L.openfiles pid fd = some g then 1 else 0)
      = (L.file g).ref + if v = some g then 1 else 0)
    (hopen : 0 < x.ref → x.type = .inode ∧ ∃ ip, x.ip = some ip)
    (hclosed : x.ref = 0 → x.type = .none) (hv : ∀ g, v = some g → g < nfile) :
    (({ L with ref := ref } : Ledger).setFile f x |>.setOpenfiles pid fd v).Quiet where
  ref := fun i => by
    have h1 := openCount_update L.file hf x i
    have h2 := href i
    have h3 := h.ref i
    show ref i = openCount (update L.file f x) i + cwdCount L.cwd i
    omega
  file_ref := fun g => by
    have h1 := fdCount_update L.openfiles hpid hfd v g
    have h2 := hfile g
    have h3 := h.file_ref g
    show (update L.file f x g).ref
      = fdCount (update L.openfiles pid (update (L.openfiles pid) fd v)) g
    omega
  opened := fun g => by
    show 0 < (update L.file f x g).ref → (update L.file f x g).type = .inode ∧
      ∃ ip, (update L.file f x g).ip = some ip
    by_cases hg : g = f
    · rw [hg, update_self]
      exact hopen
    · rw [update_of_ne hg]
      exact h.opened g
  closed := fun g => by
    show (update L.file f x g).ref = 0 → (update L.file f x g).type = .none
    by_cases hg : g = f
    · rw [hg, update_self]
      exact hclosed
    · rw [update_of_ne hg]
      exact h.closed g
  fd_lt := fun p d g hg => by
    have hg : update L.openfiles pid (update (L.openfiles pid) fd v) p d
        = some g := hg
    by_cases hp : p = pid
    · rw [hp, update_self] at hg
      by_cases hd : d = fd
      · rw [hd, update_self] at hg
        exact hv g hg
      · rw [update_of_ne hd] at hg
        exact h.fd_lt pid d g hg
    · rw [update_of_ne hp] at hg
      exact h.fd_lt p d g hg
  lock := h.lock
  held := h.held
  busy := h.busy

/-- A new open file for slot `ip`, with the reference to it. -/
theorem opening (h : L.Quiet) (hpid : pid < numIds) (hfd : fd < nofile)
    (hf : f < nfile) (hfree : (L.file f).ref = 0) (hnone : L.openfiles pid fd = none) {x : File}
    (href : x.ref = 1) (htype : x.type = .inode) (hip : x.ip = some ip) :
    (((L.addRef ip).setFile f x).setOpenfiles pid fd (some f)).Quiet := by
  refine h.refile hpid hfd hf (L.addRef ip).ref (fun i => ?_) (fun g => ?_)
    (fun _ => ⟨htype, ip, hip⟩) (fun hx => by omega) fun g hg => by cases hg; exact hf
  · rw [hfree, href, hip, if_neg (by simp)]
    by_cases hi : i = ip
    · rw [hi, Ledger.addRef_ref_self, if_pos (by simp)]
    · rw [Ledger.addRef_ref_other hi, if_neg (by simpa using fun he => hi he.symm)]
  · rw [hnone, if_neg (by simp)]
    by_cases hg : g = f
    · rw [hg, update_self, href, hfree, if_pos rfl]
    · rw [update_of_ne hg, if_neg (by simpa using fun he => hg he.symm)]

/-- The last descriptor of file `f` is closed, and the reference of the file is dropped. -/
theorem closing_last (h : (L.addRef ip).Quiet) (hpid : pid < numIds)
    (hfd : fd < nofile) (hf : f < nfile) (hone : (L.file f).ref = 1) (hip : (L.file f).ip = some ip)
    (hopen : L.openfiles pid fd = some f) :
    ((L.setFile f { L.file f with ref := 0, type := .none }).setOpenfiles pid fd none).Quiet := by
  refine h.refile hpid hfd hf L.ref (fun i => ?_) (fun g => ?_)
    (fun hx => absurd hx (lt_irrefl 0)) (fun _ => rfl) nofun
  · have hold : (L.addRef ip).file f = L.file f := rfl
    rw [hold, hone, hip, if_neg (c := 0 < 0 ∧ _) (by simp)]
    by_cases hi : i = ip
    · rw [hi, Ledger.addRef_ref_self, if_pos (by simp)]
    · rw [Ledger.addRef_ref_other hi, if_neg (by simpa using fun he => hi he.symm)]
  · have hold : (L.addRef ip).openfiles pid fd = some f := hopen
    rw [hold, if_neg (c := none = some g) (by simp)]
    by_cases hg : g = f
    · rw [hg, update_self, if_pos rfl]
      exact hone.symm
    · rw [update_of_ne hg, if_neg (by simpa using fun he => hg he.symm)]

/-- One of several descriptors of file `f` is closed. -/
theorem closing_more (h : L.Quiet) (hpid : pid < numIds) (hfd : fd < nofile)
    (hf : f < nfile) (hmore : 1 < (L.file f).ref) (hopen : L.openfiles pid fd = some f) :
    ((L.setFile f { L.file f with ref := (L.file f).ref - 1 }).setOpenfiles pid fd none).Quiet := by
  refine h.refile hpid hfd hf L.ref (fun i => ?_) (fun g => ?_)
    (fun _ => h.opened f (by omega)) (fun hx => ?_) nofun
  · have hpos : 0 < (L.file f).ref := by omega
    have hpos' : 0 < (L.file f).ref - 1 := by omega
    simp only [hpos, hpos']
  · rw [hopen, if_neg (c := none = some g) (by simp)]
    by_cases hg : g = f
    · rw [hg, update_self, if_pos rfl]
      show (L.file f).ref - 1 + 1 = _
      omega
    · rw [update_of_ne hg, if_neg (by simpa using fun he => hg he.symm)]
  · have : (L.file f).ref - 1 = 0 := hx
    omega

/-- A process moves from one working directory to another. -/
theorem moving (h : L.Quiet) (hpid : pid < numIds) {L0 : Ledger}
    (hswap : L.addRef ip = L0.addRef (L.cwd pid)) : (L0.setCwd pid ip).Quiet := by
  have hrest : L0 = { L with ref := L0.ref } := by
    have := congrArg (fun M : Ledger => { M with ref := L0.ref }) hswap
    exact this.symm
  rw [hrest]
  refine { h with ref := fun i => ?_ }
  have h1 := cwdCount_update L.cwd hpid ip i
  have h2 := h.ref i
  have h3 : (L.addRef ip).ref i = (L0.addRef (L.cwd pid)).ref i := by rw [hswap]
  show L0.ref i = openCount L.file i + cwdCount (update L.cwd pid ip) i
  simp only [Ledger.addRef, eq_comm (a := i)] at h3
  split_ifs at h1 h3 <;> omega

end Ledger.Quiet

/-! ### System calls -/

section Calls

variable {L : Ledger}

theorem Core.Is.setFile {t : Core} (ht : t.Is L) (f : ℕ) (x : File) :
    Core.Is { t with k := t.k.setFile f x } (L.setFile f x) := by
  refine { ht with file := ?_, ok := ht.ok }
  show update t.k.file f x = _
  rw [ht.file]
  rfl

theorem Core.Is.setOpenfiles {t : Core} (ht : t.Is L) (pid fd : ℕ) (f : Option ℕ) :
    Core.Is { t with k := t.k.setOpenfiles pid fd f } (L.setOpenfiles pid fd f) := by
  refine { ht with openfiles := ?_, ok := ht.ok }
  show update t.k.openfiles pid (update (t.k.openfiles pid) fd f) = _
  rw [ht.openfiles]
  rfl

theorem does_fileAlloc : Does L fileAlloc fun r L' => match r with
    | none => L' = L
    | some f => f < nfile ∧ (L.file f).ref = 0 ∧ L' = L.setFile f { L.file f with ref := 1 } := by
  refine does_critical fun t ht r k' hg => ?_
  split at hg
  · rename_i f hf
    cases hg
    have hfree := List.find?_some hf
    rw [decide_eq_true_eq, ht.file] at hfree
    refine ⟨_, ?_, List.mem_range.mp (List.mem_of_find?_eq_some hf), hfree, rfl⟩
    rw [ht.file]
    exact ht.setFile f _
  · cases hg
    exact ⟨L, ht, rfl⟩

theorem does_fdalloc (pid f : ℕ) : Does L (fdalloc pid f) fun r L' => match r with
    | none => L' = L
    | some fd => fd < nofile ∧ L.openfiles pid fd = none ∧ L' = L.setOpenfiles pid fd (some f) := by
  refine does_critical fun t ht r k' hg => ?_
  split at hg
  · rename_i fd hfd
    cases hg
    have hnone := List.find?_some hfd
    rw [decide_eq_true_eq, ht.openfiles] at hnone
    exact ⟨_, ht.setOpenfiles pid fd (some f), List.mem_range.mp (List.mem_of_find?_eq_some hfd),
      hnone, rfl⟩
  · cases hg
    exact ⟨L, ht, rfl⟩

theorem does_getFile (f : ℕ) : Does L (getFile f) fun x L' => L' = L ∧ x = L.file f := by
  refine (does_readMem _).mono ?_
  rintro x L' - ⟨hL', t, ht, rfl⟩
  exact ⟨hL', by rw [ht.file]⟩

variable {f ip dp : ℕ} {β : Type}

/-- A file is read, and the rest goes on with it. -/
theorem Does.filing {m : File → FsM β} {R : β → Ledger → Prop}
    (hm : Does L (m (L.file f)) R) : Does L (getFile f >>= m) R := by
  refine (does_getFile f).bind fun x L' _ hx => ?_
  rw [hx.1, hx.2]
  exact hm

theorem does_modifyFile (f : ℕ) (g : File → File) :
    Does L (modifyFile f g) fun _ L' => L' = L.setFile f (g (L.file f)) := by
  refine does_modifyMem fun t ht => ?_
  rw [ht.file]
  exact ht.setFile f _

theorem does_lockFile (hip : (L.file f).ip = some ip) : Does L (lockFile f) fun i L' =>
      i = ip ∧ L' = L.acquire ip ∧ 0 < L.ref ip ∧ L.lock ip = false := by
  refine Does.filing ?_
  rw [hip]
  exact (does_inodeLock ip).bind fun _ L' _ hL' => does_pure ⟨rfl, hL'⟩

theorem same_fileStat (hip : (L.file f).ip = some ip) : Same L (fileStat f) := by
  refine Does.filing (Does.ite (fun _ => ?_) fun _ => same_pure _)
  refine (does_lockFile hip).bind fun i L' _ hL' => ?_
  obtain ⟨rfl, rfl, hpos, hlock⟩ := hL'
  refine Does.reading (L := L.acquire i) hpos fun x _ => ?_
  exact Does.unlocking hlock (same_pure _)

theorem does_advance (f r : ℕ) : Does L (advance f r) fun _ L' => ∃ off, L' = L.setOff f off := by
  refine Does.ite (fun _ => ?_) fun _ => does_pure ⟨(L.file f).off, Ledger.setOff_self.symm⟩
  exact (does_modifyFile f _).mono fun _ L' _ hL' => ⟨_, hL'⟩

theorem does_fileRead (hip : (L.file f).ip = some ip) (n : ℕ) :
    Does L (fileRead f n) fun _ L' => ∃ off, L' = L.setOff f off := by
  refine Does.filing (Does.ite (fun _ => does_pure ⟨_, Ledger.setOff_self.symm⟩) fun _ => ?_)
  refine Does.ite (fun _ => ?_) fun _ => does_kernPanic _
  refine (does_lockFile hip).bind fun i L' _ hL' => ?_
  obtain ⟨rfl, rfl, hpos, hlock⟩ := hL'
  refine Does.filing ((same_inodeRead (L := L.acquire i) hpos _ _).bind fun r => ?_)
  cases r with
  | none =>
    exact Does.unlocking hlock (does_pure ⟨_, Ledger.setOff_self.symm⟩)
  | some bytes =>
    refine (does_advance f _).bind fun _ L' _ hL' => ?_
    obtain ⟨off, rfl⟩ := hL'
    exact Does.unlocking (L := L.setOff f off) hlock (does_pure ⟨off, rfl⟩)

theorem does_fileWriteChunk (hip : (L.file f).ip = some ip) (chunk : Bytes) :
    Does L (fileWriteChunk f chunk) fun _ L' => ∃ off, L' = L.setOff f off := by
  refine Does.beginning fun hbusy => ?_
  refine (does_lockFile (L := { L with busy := true }) hip).bind fun i L' _ hL' => ?_
  obtain ⟨rfl, rfl, hpos, hlock⟩ := hL'
  refine Does.filing ((same_inodeWrite (L := ({ L with busy := true } : Ledger).acquire i)
    hpos _ _).bind fun r => ?_)
  refine (does_advance f _).bind fun _ L' _ hL' => ?_
  obtain ⟨off, rfl⟩ := hL'
  refine Does.unlocking (L := ({ L with busy := true } : Ledger).setOff f off) hlock ?_
  refine does_commitTrans.to fun _ => does_pure ⟨off, ?_⟩
  unfold Ledger.setOff Ledger.setFile
  rw [← hbusy]

theorem does_fileWriteLoop (hip : (L.file f).ip = some ip) (k : ℕ) (src : Bytes) :
    Does L (fileWriteLoop f k src) fun _ L' => ∃ off, L' = L.setOff f off := by
  induction k generalizing L src with
  | zero => exact does_pure ⟨_, Ledger.setOff_self.symm⟩
  | succ k ih =>
    refine Does.ite (fun _ => does_pure ⟨_, Ledger.setOff_self.symm⟩) fun _ => ?_
    refine (does_fileWriteChunk hip _).bind fun r L' _ hL' => ?_
    obtain ⟨off, rfl⟩ := hL'
    cases r with
    | none => exact does_pure ⟨off, rfl⟩
    | some n =>
      refine Does.ite (fun _ => ?_) fun _ => does_kernPanic _
      have hip' : ((L.setOff f off).file f).ip = some ip := by
        simpa [Ledger.setOff, Ledger.setFile] using hip
      refine (ih hip' _).mono fun _ L' _ hL' => ?_
      obtain ⟨off', rfl⟩ := hL'
      exact ⟨off', Ledger.setOff_setOff⟩

theorem does_fileWrite (hip : (L.file f).ip = some ip) (src : Bytes) :
    Does L (fileWrite f src) fun _ L' => ∃ off, L' = L.setOff f off := by
  refine Does.filing (Does.ite (fun _ => does_pure ⟨_, Ledger.setOff_self.symm⟩) fun _ => ?_)
  refine Does.ite (fun _ => ?_) fun _ => does_kernPanic _
  exact (does_fileWriteLoop hip _ _).bind fun all L' _ hL' => does_pure hL'

/-- The section of `file_close` drops a reference, and with the last one the type. -/
theorem does_closeSection (f : ℕ) : Does L (critical fun k => k.fileClose f) fun r L' =>
    (1 < (L.file f).ref ∧ r = none ∧
      L' = L.setFile f { L.file f with ref := (L.file f).ref - 1 }) ∨
    ((L.file f).ref = 1 ∧ r = some (L.file f) ∧
      L' = L.setFile f { L.file f with ref := 0, type := .none }) := by
  refine does_critical fun t ht r k' hg => ?_
  unfold Kmem.fileClose at hg
  rw [ht.file] at hg
  split at hg
  · cases hg
  split at hg
  · cases hg
    exact ⟨_, ht.setFile f _, .inl ⟨by omega, rfl, rfl⟩⟩
  · cases hg
    exact ⟨_, ht.setFile f _, .inr ⟨by omega, rfl, rfl⟩⟩

/-- `file_close` of a file without an inode. -/
theorem does_fileClose_none (hone : (L.file f).ref = 1) (htype : (L.file f).type = .none) :
    Does L (fileClose f) fun _ L' => L' = L.setFile f { L.file f with ref := 0, type := .none } := by
  refine (does_closeSection f).bind fun r L' _ hr => ?_
  obtain ⟨-, rfl, rfl⟩ := hr.resolve_left (by omega)
  refine Does.ite (fun hi => ?_) fun _ => same_pure _
  rw [htype] at hi
  cases hi

/-- `file_close` of the last descriptor drops the reference of the file. -/
theorem does_fileClose_last (hok : L.Ok) (hone : (L.file f).ref = 1)
    (htype : (L.file f).type = .inode) (hip : (L.file f).ip = some ip) (hbusy : L.busy = false) :
    Does (L.addRef ip) (fileClose f) fun _ L' =>
      L' = L.setFile f { L.file f with ref := 0, type := .none } := by
  refine (does_closeSection f).bind fun r L' _ hr => ?_
  have hfile : (L.addRef ip).file = L.file := rfl
  rw [hfile] at hr
  obtain ⟨-, rfl, rfl⟩ := hr.resolve_left (by omega)
  refine Does.ite (fun _ => Does.beginning fun _ => ?_) fun hi => absurd htype hi
  have hput : Does ({ L.setFile f { L.file f with ref := 0, type := .none } with busy := true }.addRef ip)
      (putFileInode (L.file f)) fun _ L' =>
        L' = { L.setFile f { L.file f with ref := 0, type := .none } with busy := true } := by
    unfold putFileInode
    rw [hip]
    exact does_inodePut (L := { L.setFile f { L.file f with ref := 0, type := .none } with
      busy := true }) hok
  refine hput.to fun _ => does_commitTrans.mono fun _ L' _ hL' => ?_
  rw [hL', ← hbusy]
  rfl

/-- `file_close` of one of several descriptors. -/
theorem does_fileClose_more (hmore : 1 < (L.file f).ref) : Does L (fileClose f) fun _ L' =>
      L' = L.setFile f { L.file f with ref := (L.file f).ref - 1 } := by
  refine (does_closeSection f).bind fun r L' _ hr => ?_
  obtain ⟨-, rfl, rfl⟩ := hr.resolve_right (by omega)
  exact same_pure _

theorem same_acquireBufLock : Same L acquireBufLock := by
  refine does_critical fun t ht b k' hg => ⟨L, ?_, rfl⟩
  split at hg
  · cases hg
  · cases hg
    exact { ht with ok := ht.ok }

theorem same_releaseBufLock : Same L releaseBufLock :=
  does_modifyMem fun _ ht => { ht with ok := ht.ok }

theorem does_descriptor (pid fd : ℕ) : Does L (descriptor pid fd) fun r L' =>
    L' = L ∧ ∀ f, r = some f → L.openfiles pid fd = some f := by
  refine (does_readMem _).bind fun fp L' _ hfp => ?_
  obtain ⟨rfl, t, ht, rfl⟩ := hfp
  rw [ht.openfiles]
  cases hfd : L'.openfiles pid fd with
  | none => exact does_pure ⟨rfl, nofun⟩
  | some f =>
    refine Does.filing (does_pure ⟨rfl, fun g hg => ?_⟩)
    split at hg
    · cases hg
    · exact hg

/-- Calls that take a descriptor and only move its offset. -/
theorem quiet_setOff {L' : Ledger} (h : L.Quiet) (hL' : ∃ off, L' = L.setOff f off) : L'.Quiet := by
  obtain ⟨off, rfl⟩ := hL'
  exact h.setOff f off

variable {pid : ℕ}

/-- A call that holds `buf_lock`. -/
theorem quiet_bufLock {m : FsM Ret} (h : Does L m fun _ L' => L'.Quiet) : Does L (do
      acquireBufLock
      let ret ← m
      releaseBufLock
      pure ret) fun _ L' => L'.Quiet :=
  same_acquireBufLock.bind fun _ => h.bind fun _ _ _ hL' =>
    same_releaseBufLock.bind fun _ => does_pure hL'

/-- A descriptor is looked up; the file it leads to has an inode. -/
theorem Does.onDescriptor {fd : ℕ} {m : Option ℕ → FsM β} {R : β → Ledger → Prop}
    (h : L.Quiet) (hpid : pid < numIds) (hfd : fd < nofile) (hnone : Does L (m none) R)
    (hsome : ∀ f ip, (L.file f).ip = some ip → Does L (m (some f)) R) :
    Does L (descriptor pid fd >>= m) R := by
  refine (does_descriptor pid fd).bind fun fp L' _ hfp => ?_
  obtain ⟨rfl, hopen⟩ := hfp
  cases fp with
  | none => exact hnone
  | some f =>
    obtain ⟨-, -, -, ip, hip, -⟩ := h.of_fd hpid hfd (hopen f rfl)
    exact hsome f ip hip

theorem quiet_sysRead (h : L.Quiet) (hpid : pid < numIds) (fd userBuf n : ℕ) :
    Does L (sysRead pid fd userBuf n) fun _ L' => L'.Quiet := by
  refine quiet_bufLock (Does.ite (fun _ => does_pure h) fun hfd => ?_)
  refine Does.ite (fun _ => does_pure h) fun _ => ?_
  refine Does.onDescriptor h hpid (by omega) (does_pure h) fun f ip hip => ?_
  refine (does_fileRead hip n).bind fun r L' _ hL' => ?_
  cases r <;> exact does_pure (quiet_setOff h hL')

theorem quiet_sysWrite (h : L.Quiet) (hpid : pid < numIds) (fd userBuf : ℕ) (src : Bytes) :
    Does L (sysWrite pid fd userBuf src) fun _ L' => L'.Quiet := by
  refine quiet_bufLock (Does.ite (fun _ => does_pure h) fun hfd => ?_)
  refine Does.ite (fun _ => does_pure h) fun _ => ?_
  refine Does.onDescriptor h hpid (by omega) (does_pure h) fun f ip hip => ?_
  refine (does_fileWrite hip src).bind fun r L' _ hL' => ?_
  cases r <;> exact does_pure (quiet_setOff h hL')

theorem does_setOpenfiles (pid fd : ℕ) (f : Option ℕ) :
    Does L (modifyMem fun k => k.setOpenfiles pid fd f) fun _ L' => L' = L.setOpenfiles pid fd f :=
  does_modifyMem fun _ ht => ht.setOpenfiles pid fd f

theorem quiet_sysClose (h : L.Quiet) (hpid : pid < numIds) (fd : ℕ) :
    Does L (sysClose pid fd) fun _ L' => L'.Quiet := by
  refine Does.ite (fun _ => does_pure h) fun hfd => ?_
  have hfd : fd < nofile := by omega
  refine (does_readMem _).bind fun fp L' _ hfp => ?_
  obtain ⟨rfl, t, ht, rfl⟩ := hfp
  rw [ht.openfiles]
  cases hopen : L'.openfiles pid fd with
  | none => exact does_pure h
  | some f =>
    obtain ⟨hf, hpos, htype, ip, hip, href⟩ := h.of_fd hpid hfd hopen
    by_cases hone : (L'.file f).ref = 1
    · obtain ⟨L0, hok, rfl⟩ := Ledger.exists_addRef h.ok href (h.lock ip)
      refine (does_fileClose_last hok hone htype hip h.busy).to fun _ => ?_
      exact (does_setOpenfiles pid fd none).to fun _ =>
        does_pure (Ledger.Quiet.closing_last h hpid hfd hf hone hip hopen)
    · have hmore : 1 < (L'.file f).ref := by omega
      refine (does_fileClose_more hmore).to fun _ => ?_
      exact (does_setOpenfiles pid fd none).to fun _ =>
        does_pure (h.closing_more hpid hfd hf hmore hopen)

theorem quiet_sysFstat (h : L.Quiet) (hpid : pid < numIds) (fd userStp : ℕ) :
    Does L (sysFstat pid fd userStp) fun _ L' => L'.Quiet := by
  refine Does.ite (fun _ => does_pure h) fun hbad => ?_
  refine (does_readMem _).bind fun fp L' _ hfp => ?_
  obtain ⟨rfl, t, ht, rfl⟩ := hfp
  rw [ht.openfiles]
  cases hopen : L'.openfiles pid fd with
  | none => exact does_pure h
  | some f =>
    obtain ⟨-, -, -, ip, hip, -⟩ := h.of_fd hpid (by omega) hopen
    refine (same_fileStat hip).bind fun st => ?_
    cases st <;> exact does_pure h

/-! ### Calls with paths -/

/-- The ledger inside a transaction. -/
def Ledger.begun (L : Ledger) : Ledger := { L with busy := true }

/-- The end of a transaction. -/
theorem does_commit (hbusy : L.busy = false) : Does L.begun commitTrans fun _ L' => L' = L := by
  refine does_commitTrans.mono fun _ L' _ hL' => ?_
  rw [hL', ← hbusy]
  rfl

/-- The end of a transaction, and the rest of the call. -/
theorem Does.committing {f : PUnit → FsM β} {R : β → Ledger → Prop} (hbusy : L.busy = false)
    (hf : Does L (f ⟨⟩) R) : Does L.begun (commitTrans >>= f) R :=
  (does_commit hbusy).to fun _ => hf

theorem Ledger.addRef_pos : 0 < (L.addRef ip).ref ip := by
  rw [Ledger.addRef_ref_self]
  omega

theorem does_sysLinkBad (h : L.Quiet) :
    Does (L.begun.addRef ip) (sysLinkBad ip) fun _ L' => L' = L := by
  refine Does.locking fun hpos hlock => (same_modifyInode _ _).bind fun _ => ?_
  refine (same_inodeUpdate (L := (L.begun.addRef ip).acquire ip) hpos).bind fun _ => ?_
  refine Does.unlockputting (L := L.begun) h.ok hlock (Does.committing h.busy (does_pure rfl))

theorem does_sysLink (h : L.Quiet) (hpid : pid < numIds) (old new : Bytes) :
    Does L (sysLink pid old new) fun _ L' => L' = L := by
  refine Does.naming (h.cwd_pos hpid) (does_pure rfl) fun ip => ?_
  refine Does.beginning fun _ => Does.locking fun hpos hlock => ?_
  refine Does.reading (L := (L.begun.addRef ip).acquire ip) hpos fun x _ => ?_
  refine Does.ite (fun _ => ?_) fun _ => ?_
  · exact Does.unlockputting (L := L.begun) h.ok hlock (Does.committing h.busy (does_pure rfl))
  refine (same_modifyInode _ _).bind fun _ => ?_
  refine (same_inodeUpdate (L := (L.begun.addRef ip).acquire ip) hpos).bind fun _ => ?_
  refine Does.unlocking (L := L.begun.addRef ip) hlock ?_
  have hcwd : 0 < (L.begun.addRef ip).ref ((L.begun.addRef ip).cwd pid) :=
    (h.cwd_pos hpid).trans_le Ledger.le_addRef_ref
  refine (does_nameiparent hcwd _).found (does_sysLinkBad h) fun dp name => ?_
  refine Does.locking fun hdp hdlock => ?_
  have hip : 0 < (((L.begun.addRef ip).addRef dp).acquire dp).ref ip :=
    Ledger.addRef_pos.trans_le Ledger.le_addRef_ref
  refine Does.reading (L := ((L.begun.addRef ip).addRef dp).acquire dp) hdp fun d _ => ?_
  refine Does.reading hip fun i _ => ?_
  have hdp' : 0 < (((L.begun.addRef ip).addRef dp).acquire dp).ref dp := hdp
  have hlink : Same (((L.begun.addRef ip).addRef dp).acquire dp)
      (if d.dev ≠ i.dev then pure false else dirLink dp name i.inum) :=
    Does.ite (fun _ => same_pure _) fun _ => same_dirLink hdp' _ _
  refine hlink.bind fun linked => ?_
  have hok : L.begun.Ok := h.ok
  refine Does.unlockputting hok.addRef hdlock (Does.ite (fun _ => ?_) fun _ => ?_)
  · exact Does.putting hok (Does.committing h.busy (does_pure rfl))
  · exact does_sysLinkBad h

theorem same_isdiremptyFrom (hdp : 0 < L.ref dp) (k off : ℕ) :
    Same L (isdiremptyFrom dp k off) := by
  induction k generalizing off with
  | zero => exact does_diverge
  | succ k ih =>
    refine Does.reading hdp fun x _ => Does.ite (fun _ => ?_) fun _ => same_pure _
    exact (same_readDirent hdp _ _).bind fun de => Does.ite (fun _ => same_pure _) fun _ => ih _

theorem does_sysUnlinkBad (h : L.Quiet) :
    Does ((L.begun.addRef dp).acquire dp) (sysUnlinkBad dp) fun _ L' => L' = L :=
  Does.unlockputting (L := L.begun) h.ok (h.lock dp) (Does.committing h.busy (does_pure rfl))

theorem Ledger.acquire_comm {j : ℕ} : (L.acquire ip).acquire j = (L.acquire j).acquire ip := by
  unfold Ledger.acquire
  dsimp only
  by_cases hij : ip = j
  · rw [hij]
  · rw [update_comm hij]

/-- Two locked slots, in the other order. -/
theorem Ledger.locked_comm {j : ℕ} : (((L.addRef j).acquire j).addRef ip).acquire ip
    = (((L.addRef ip).acquire ip).addRef j).acquire j := by
  rw [show ((L.addRef j).acquire j).addRef ip = ((L.addRef j).addRef ip).acquire j from rfl,
    Ledger.acquire_comm, Ledger.addRef_comm]
  rfl

/-- Both inodes of `sys_unlink` are locked; the directory is let go first. -/
theorem does_sysUnlinkEntry {off : ℕ} (h : L.Quiet)
    (hlock : ((L.begun.addRef dp).acquire dp |>.addRef ip).lock ip = false) :
    Does ((((L.begun.addRef dp).acquire dp).addRef ip).acquire ip) (sysUnlinkEntry dp ip off)
      fun _ L' => L' = L := by
  have hne : ip ≠ dp := by
    rintro rfl
    simp [Ledger.addRef] at hlock
  have hok : L.begun.Ok := h.ok
  have hdp : 0 < ((((L.begun.addRef dp).acquire dp).addRef ip).acquire ip).ref dp :=
    (Ledger.addRef_pos (L := L.begun)).trans_le Ledger.le_addRef_ref
  have hip : 0 < ((((L.begun.addRef dp).acquire dp).addRef ip).acquire ip).ref ip :=
    Ledger.addRef_pos (L := (L.begun.addRef dp).acquire dp)
  refine (same_inodeWrite hdp _ _).bind fun r => Does.ite (fun _ => does_kernPanic _) fun _ => ?_
  refine Does.reading hip fun x _ => ?_
  refine Same.bind (Same.when fun _ => (same_modifyInode _ _).bind fun _ => same_inodeUpdate hdp)
    fun _ => ?_
  rw [Ledger.locked_comm]
  refine Does.unlockputting (L := (L.begun.addRef ip).acquire ip)
    (hok.addRef.acquire Ledger.addRef_pos) ?_ ?_
  · rw [Ledger.acquire_lock_other hne.symm]
    exact h.lock dp
  · refine (same_modifyInode _ _).bind fun _ => ?_
    refine (same_inodeUpdate (L := (L.begun.addRef ip).acquire ip) Ledger.addRef_pos).bind fun _ => ?_
    exact Does.unlockputting hok (h.lock ip) (Does.committing h.busy (does_pure rfl))

theorem does_sysUnlink (h : L.Quiet) (hpid : pid < numIds) (buf : Bytes) :
    Does L (sysUnlink pid buf) fun _ L' => L' = L := by
  refine (does_nameiparent (h.cwd_pos hpid) _).found (does_pure rfl) fun dp name => ?_
  refine Does.beginning fun _ => Does.locking fun hdp hdlock => ?_
  refine Does.ite (fun _ => does_sysUnlinkBad h) fun _ => ?_
  have hpos : 0 < ((L.begun.addRef dp).acquire dp).ref dp := hdp
  refine (does_dirLookup hpos _).found (does_sysUnlinkBad h) fun ip off => ?_
  refine Does.locking fun hip hlock => Does.reading hip fun x _ => ?_
  refine Does.ite (fun _ => does_kernPanic _) fun _ => ?_
  have hip' : 0 < ((((L.begun.addRef dp).acquire dp).addRef ip).acquire ip).ref ip := hip
  have hempty : Same ((((L.begun.addRef dp).acquire dp).addRef ip).acquire ip)
      (if x.d.type = tDir then isdirempty ip else pure true) :=
    Does.ite (fun _ => Does.reading hip' fun _ _ => same_isdiremptyFrom hip' _ _)
      fun _ => same_pure _
  refine hempty.bind fun empty => Does.ite (fun _ => ?_) fun _ => ?_
  · exact does_sysUnlinkEntry h hlock
  · have hok : ((L.begun.addRef dp).acquire dp).Ok :=
      Ledger.Ok.acquire (Ledger.Ok.addRef h.ok) Ledger.addRef_pos
    exact Does.unlockputting hok hlock (does_sysUnlinkBad h)

/-- `create` returns the inode with a reference, and locked. -/
def Created (L : Ledger) (r : Option ℕ) (L' : Ledger) : Prop :=
  match r with
  | none => L' = L
  | some ip => L' = (L.addRef ip).acquire ip ∧ L.lock ip = false

theorem same_createDots {inum : ℕ} (hdp : 0 < L.ref dp) (hip : 0 < L.ref ip) :
    Same L (createDots dp ip inum) := by
  refine (same_modifyInode _ _).bind fun _ => (same_inodeUpdate hdp).bind fun _ => ?_
  refine (same_dirLink hip _ _).bind fun one => ?_
  refine (Same.when fun _ => does_kernPanic _).bind fun _ => Does.reading hdp fun d _ => ?_
  exact (same_dirLink hip _ _).bind fun two => Same.when fun _ => does_kernPanic _

theorem does_create (hok : L.Ok) (hcwd : 0 < L.ref (L.cwd pid)) (path : Bytes)
    (type major minor : ℕ) : Does L (create pid path type major minor) (Created L) := by
  refine (does_nameiparent hcwd _).found (does_pure rfl) fun dp name => ?_
  refine Does.locking fun hdp hdlock => ?_
  have hpos : 0 < ((L.addRef dp).acquire dp).ref dp := hdp
  refine (does_dirLookup hpos _).found ?_ fun ip off => ?_
  · refine Does.reading hpos fun d hd => ?_
    rw [hd]
    refine (does_inodeAlloc _).bind fun ip L' _ hL' => ?_
    rw [hL']
    refine Does.locking fun hip hlock => (same_modifyInode _ _).bind fun _ => ?_
    have hne : ip ≠ dp := by
      rintro rfl
      simp [Ledger.addRef] at hlock
    have hlock' : L.lock ip = false := by
      have : ((L.addRef dp).acquire dp).lock ip = false := hlock
      rwa [Ledger.acquire_lock_other hne] at this
    have hdp' : 0 < ((((L.addRef dp).acquire dp).addRef ip).acquire ip).ref dp :=
      hpos.trans_le Ledger.le_addRef_ref
    have hip' : 0 < ((((L.addRef dp).acquire dp).addRef ip).acquire ip).ref ip := hip
    refine (same_inodeUpdate hip').bind fun _ => Does.reading hip' fun i _ => ?_
    refine (Same.when fun _ => same_createDots hdp' hip').bind fun _ => ?_
    refine (same_dirLink hdp' _ _).bind fun linked => ?_
    refine (Same.when fun _ => does_kernPanic _).bind fun _ => ?_
    rw [Ledger.locked_comm]
    refine Does.unlockputting (L := (L.addRef ip).acquire ip)
      (hok.addRef.acquire Ledger.addRef_pos) ?_ (does_pure ⟨rfl, hlock'⟩)
    rw [Ledger.acquire_lock_other hne.symm]
    exact hdlock
  · have hswap : ((L.addRef dp).acquire dp).addRef ip = ((L.addRef ip).addRef dp).acquire dp := by
      rw [← Ledger.addRef_comm]
      rfl
    rw [hswap]
    refine Does.unlockputting hok.addRef hdlock (Does.locking fun hip hlock => ?_)
    refine Does.reading hip fun x _ => Does.ite (fun _ => does_pure ⟨rfl, hlock⟩) fun _ => ?_
    exact Does.unlockputting hok hlock (does_pure rfl)

/-- A file that was taken and given back is as it was. -/
theorem setFile_back (h : L.Quiet) (hfree : (L.file f).ref = 0) :
    (L.setFile f { L.file f with ref := 1 }).setFile f
      { (L.setFile f { L.file f with ref := 1 }).file f with ref := 0, type := .none } = L := by
  have htype := h.closed f hfree
  have hback : { L.file f with ref := 0, type := .none } = L.file f := by
    cases hx : L.file f
    rw [hx] at hfree htype
    dsimp only at hfree htype
    rw [hfree, htype]
  unfold Ledger.setFile
  dsimp only
  rw [update_self, update_idem]
  dsimp only
  rw [hback, update_eq_self]

theorem quiet_sysOpenInode (h : L.Quiet) (hpid : pid < numIds) (omode : ℕ) :
    Does ((L.addRef ip).acquire ip) (sysOpenInode pid ip omode) fun _ L' => L'.Quiet := by
  refine does_fileAlloc.bind fun f L' _ hf => ?_
  cases f with
  | none =>
    obtain rfl : L' = (L.addRef ip).acquire ip := hf
    exact Does.unlockputting h.ok (h.lock ip) (does_pure h)
  | some f =>
    obtain ⟨hlt, hfree, rfl⟩ := hf
    refine (does_fdalloc pid f).bind fun fd L' _ hfd => ?_
    cases fd with
    | none =>
      obtain rfl : L' = _ := hfd
      have htype : (L.file f).type = .none := h.closed f hfree
      have hself : ((((L.addRef ip).acquire ip).setFile f
          { ((L.addRef ip).acquire ip).file f with ref := 1 }).file f)
          = { L.file f with ref := 1 } := update_self ..
      refine (does_fileClose_none ?_ ?_).bind fun _ L' _ hL' => ?_
      · rw [hself]
      · rw [hself]
        exact htype
      · have hback : L' = (L.addRef ip).acquire ip := by
          rw [hL']
          exact congrArg (fun M : Ledger => (M.addRef ip).acquire ip) (setFile_back h hfree)
        rw [hback]
        exact Does.unlockputting h.ok (h.lock ip) (does_pure h)
    | some fd =>
      obtain ⟨hfd, hnone, rfl⟩ := hfd
      refine Does.unlocking (L := ((L.addRef ip).setFile f { L.file f with ref := 1 }).setOpenfiles
        pid fd (some f)) (h.lock ip) ?_
      refine (does_modifyFile f _).bind fun _ L' _ hL' => does_pure ?_
      have hself : (((L.addRef ip).setFile f { L.file f with ref := 1 }).setOpenfiles pid fd
          (some f)).file f = { L.file f with ref := 1 } := update_self ..
      have hfile : ∀ x : File, (((L.addRef ip).setFile f { L.file f with ref := 1 }).setOpenfiles
          pid fd (some f)).setFile f x = ((L.addRef ip).setFile f x).setOpenfiles pid fd (some f) := by
        intro x
        unfold Ledger.setFile Ledger.setOpenfiles
        dsimp only
        rw [update_idem]
      rw [hL', hself, hfile]
      exact h.opening hpid hfd hlt hfree hnone rfl rfl rfl

theorem same_sysOpenFirst (hbusy : L.busy = false) : Same L sysOpenFirst := by
  refine (does_readMem _).bind fun first L' _ hfirst => ?_
  obtain ⟨rfl, -⟩ := hfirst
  refine Same.when fun _ => ?_
  have hset : Same L' (modifyMem fun k => { k with first := false }) :=
    does_modifyMem fun _ ht => { ht with ok := ht.ok }
  exact hset.bind fun _ => same_logInit hbusy

theorem quiet_sysOpen (h : L.Quiet) (hpid : pid < numIds) (buf : Bytes) (omode : ℕ) :
    Does L (sysOpen pid buf omode) fun _ L' => L'.Quiet := by
  refine (same_sysOpenFirst h.busy).bind fun _ => Does.ite (fun _ => ?_) fun _ => ?_
  · refine Does.beginning fun _ => ?_
    refine (does_create (L := L.begun) h.ok (h.cwd_pos hpid) _ _ _ _).bind fun found L' _ hL' => ?_
    cases found with
    | none =>
      obtain rfl : L' = L.begun := hL'
      exact Does.committing h.busy (does_pure h)
    | some ip =>
      obtain ⟨rfl, -⟩ := hL'
      exact Does.committing (L := (L.addRef ip).acquire ip) h.busy (quiet_sysOpenInode h hpid omode)
  · refine Does.naming (h.cwd_pos hpid) (does_pure h) fun ip => Does.locking fun hpos hlock => ?_
    refine Does.reading hpos fun x _ => Does.ite (fun _ => ?_) fun _ => quiet_sysOpenInode h hpid omode
    exact Does.unlockputting h.ok hlock (does_pure h)

theorem does_sysMkdir (h : L.Quiet) (hpid : pid < numIds) (buf : Bytes) :
    Does L (sysMkdir pid buf) fun _ L' => L' = L := by
  refine Does.beginning fun _ => ?_
  refine (does_create (L := L.begun) h.ok (h.cwd_pos hpid) _ _ _ _).bind fun made L' _ hL' => ?_
  cases made with
  | none =>
    obtain rfl : L' = L.begun := hL'
    exact Does.committing h.busy (does_pure rfl)
  | some ip =>
    obtain ⟨rfl, hlock⟩ := hL'
    exact Does.unlockputting (L := L.begun) h.ok hlock (Does.committing h.busy (does_pure rfl))

theorem quiet_sysChdir (h : L.Quiet) (hpid : pid < numIds) (buf : Bytes) :
    Does L (sysChdir pid buf) fun _ L' => L'.Quiet := by
  refine Does.naming (h.cwd_pos hpid) (does_pure h) fun ip => Does.locking fun hpos hlock => ?_
  refine Does.reading hpos fun x _ => Does.ite (fun _ => ?_) fun _ => Does.unlocking hlock ?_
  · exact Does.unlockputting h.ok hlock (does_pure h)
  refine (does_readMem _).bind fun cwd L' hok hcwd => ?_
  obtain ⟨rfl, t, ht, rfl⟩ := hcwd
  rw [show t.k.cwd pid = L.cwd pid from congrFun ht.cwd pid]
  -- the reference of the old working directory is among those the slot has
  have hold : 0 < (L.addRef ip).ref (L.cwd pid) := (h.cwd_pos hpid).trans_le Ledger.le_addRef_ref
  obtain ⟨L0, hok0, hswap⟩ := Ledger.exists_addRef hok hold (h.lock _)
  rw [hswap]
  refine Does.putting hok0 ?_
  have hset : Does L0 (modifyMem fun k => k.setCwd pid ip) fun _ L' => L' = L0.setCwd pid ip := by
    refine does_modifyMem fun t ht => { ht with cwd := ?_, ok := ht.ok }
    show update t.k.cwd pid ip = _
    rw [ht.cwd]
    rfl
  exact hset.to fun _ => does_pure (h.moving hpid hswap)

/-- Every call leads from a quiet ledger to a quiet one. -/
theorem quiet_call (h : L.Quiet) (hpid : pid < numIds) (c : Call) :
    Does L (c.prog pid) fun _ L' => L'.Quiet := by
  have hsame : ∀ {m : FsM Ret}, (Does L m fun _ L' => L' = L) → Does L m fun _ L' => L'.Quiet :=
    fun hm => hm.mono fun _ L' _ hL' => by
      rw [hL']
      exact h
  cases c with
  | «open» path omode => exact quiet_sysOpen h hpid path omode
  | close fd => exact quiet_sysClose h hpid fd
  | read fd userBuf n => exact quiet_sysRead h hpid fd userBuf n
  | write fd userBuf src => exact quiet_sysWrite h hpid fd userBuf src
  | mkdir path => exact hsame (does_sysMkdir h hpid path)
  | chdir path => exact quiet_sysChdir h hpid path
  | link old new => exact hsame (does_sysLink h hpid old new)
  | unlink path => exact hsame (does_sysUnlink h hpid path)
  | fstat fd userStp => exact quiet_sysFstat h hpid fd userStp

end Calls

/-! ### Runs -/

namespace FsSys

/-- The system after boot. -/
def boot (disk : Disk) (junk : ℕ → ℕ) : FsSys := ⟨Mcertikos.boot disk, bootKmem, [], junk⟩

/-- One system call, by any process, that returns. -/
def Completes (s s' : FsSys) : Prop :=
  ∃ pid < numIds, ∃ (c : Call) (ret : Ret), exec (c.prog pid) s = .ok ret s'

/-- The counts are exact, and nothing is locked, held or dirty. -/
structure Quiescent (s : FsSys) : Prop where
  ref : ∀ i < ninode, (s.k.inode i).ref = openCount s.k.file i + cwdCount s.k.cwd i
  file_ref : ∀ f < nfile, (s.k.file f).ref = fdCount s.k.openfiles f
  unlocked : ∀ i < ninode, (s.k.inode i).busy = false
  buffers : ∀ b < nbuf, (s.sys.c.buf b).busy = false ∧ (s.sys.c.buf b).dirty = false
  log_busy : s.sys.log.busy = false
  log_empty : s.sys.log.lh.n = 0

/-- The state has a quiet ledger. -/
def HasQuiet (s : FsSys) : Prop := ∃ (t : Core) (L : Ledger), Tracks s t ∧ t.Is L ∧ L.Quiet

theorem HasQuiet.step {s s' : FsSys} (h : s.HasQuiet) (hstep : s.Completes s') : s'.HasQuiet := by
  obtain ⟨t, L, htracks, ht, hquiet⟩ := h
  obtain ⟨pid, hpid, c, ret, hexec⟩ := hstep
  obtain ⟨t', htracks', L', ht', hquiet'⟩ :=
    (quiet_call hquiet hpid c t ht).run ledger_sound htracks (run_of_exec hexec)
  exact ⟨t', L', htracks', ht', hquiet'⟩

theorem HasQuiet.quiescent {s : FsSys} (h : s.HasQuiet) : s.Quiescent := by
  obtain ⟨t, L, ⟨hk, hflags, hbusy⟩, ht, hquiet⟩ := h
  have hidle : s.sys.log.busy = false := hbusy.trans (ht.busy.trans hquiet.busy)
  have hempty := hflags.idle hidle
  refine ⟨fun i _ => ?_, fun f _ => ?_, fun i _ => ?_, fun b hb => ?_, hidle, hempty⟩
  · rw [hk, ht.ref i, ht.file, ht.cwd]
    exact hquiet.ref i
  · rw [hk, ht.file, ht.openfiles]
    exact hquiet.file_ref f
  · rw [hk, ht.lock i]
    exact hquiet.lock i
  · obtain ⟨l, hl⟩ := hflags.flags
    refine ⟨?_, ?_⟩
    · rw [hl.busy b, ht.held]
      exact hquiet.held b
    · -- a dirty buffer would be in the header
      cases hd : (s.sys.c.buf b).dirty with
      | false => rfl
      | true =>
        obtain ⟨i, hi, -⟩ := (hl.each b (hl.perm.mem_iff.mpr (List.mem_range.mpr hb))).dirty hd
        omega

theorem hasQuiet_boot (disk : Disk) (junk : ℕ → ℕ) : (boot disk junk).HasQuiet := by
  let L : Ledger := ⟨fun i => (bootKmem.inode i).ref, fun _ => false, bootKmem.file,
    bootKmem.openfiles, bootKmem.cwd, fun _ => false, false⟩
  have hslot : ∀ i, (bootKmem.inode i).ref = (if i = 0 then numIds else 0) ∧
      (bootKmem.inode i).busy = false ∧ (i = 0 → (bootKmem.inode i).dev = rootdev) := by
    intro i
    unfold bootKmem rootKmem
    rw [if_neg (by decide)]
    by_cases hi : i = 0
    · rw [hi, Kmem.setInode_self]
      exact ⟨rfl, rfl, fun _ => rfl⟩
    · rw [Kmem.setInode_other _ _ hi, if_neg hi]
      exact ⟨rfl, rfl, fun h => absurd h hi⟩
  refine ⟨⟨bootKmem, fun _ => false, false⟩, L, ⟨rfl, ?_, ?_⟩, ?_, ?_⟩
  · show LogFlags _ (Mcertikos.boot disk)
    unfold Mcertikos.boot
    exact logFlags_boot disk _ rfl rfl
  · show (Mcertikos.boot disk).log.busy = false
    unfold Mcertikos.boot
    rfl
  · refine ⟨fun _ => rfl, fun i => (hslot i).2.1, fun i hi => (hslot i).2.2 ?_, rfl, rfl, rfl, rfl,
      rfl, nofun⟩
    by_contra hne
    have hi : 0 < (bootKmem.inode i).ref := hi
    rw [(hslot i).1, if_neg hne] at hi
    omega
  · have hopen : ∀ i, openCount bootKmem.file i = 0 := fun i =>
      card_eq_zero.mpr (filter_eq_empty_iff.mpr fun f _ hf => absurd hf.1 (lt_irrefl 0))
    have hcwd : ∀ i, cwdCount bootKmem.cwd i = if i = 0 then numIds else 0 := by
      intro i
      unfold cwdCount
      by_cases hi : i = 0
      · have hall : ∀ pid ∈ range numIds, bootKmem.cwd pid = 0 := fun _ _ => rfl
        rw [if_pos hi, hi, filter_true_of_mem hall, card_range]
      · rw [if_neg hi]
        exact card_eq_zero.mpr (filter_eq_empty_iff.mpr fun _ _ h => hi h.symm)
    have hfd : ∀ f, fdCount bootKmem.openfiles f = 0 := fun f =>
      card_eq_zero.mpr (filter_eq_empty_iff.mpr nofun)
    refine ⟨fun i => ?_, fun f => (hfd f).symm, fun f hf => absurd hf (lt_irrefl 0), fun _ _ => rfl,
      nofun, fun _ => rfl, fun _ => rfl, rfl⟩
    show (bootKmem.inode i).ref = openCount bootKmem.file i + cwdCount bootKmem.cwd i
    rw [(hslot i).1, hopen i, hcwd i, Nat.zero_add]

/-- **Exact counts**: every state that completed calls lead to is quiescent. -/
theorem quiescent_of_calls (disk : Disk) (junk : ℕ → ℕ) {s : FsSys}
    (h : ReflTransGen Completes (boot disk junk) s) : s.Quiescent := by
  have hquiet : s.HasQuiet := by
    induction h with
    | refl => exact hasQuiet_boot disk junk
    | tail _ hstep ih => exact ih.step hstep
  exact hquiet.quiescent

/-- Process 0 opens the file `/f`. -/
def openF : Option (Ret × FsSys) :=
  evalProg 100 ((Call.open [slash, 102] 0).prog 0) (boot oneFile fun _ => 0)

theorem openF_opens : openF.any (fun r => 0 < (r.2.k.file 0).ref) = true := by decide +kernel

theorem quiescent_of_open : ∃ s : FsSys,
    ReflTransGen Completes (boot oneFile fun _ => 0) s ∧ 0 < (s.k.file 0).ref ∧ s.Quiescent := by
  obtain ⟨r, h, hopens⟩ := (Option.any_eq_true ..).mp openF_opens
  have hstep : Completes (boot oneFile fun _ => 0) r.2 :=
    ⟨0, by decide, .open [slash, 102] 0, r.1, exec_of_evalProg h⟩
  have hrun : ReflTransGen Completes (boot oneFile fun _ => 0) r.2 := .single hstep
  exact ⟨r.2, hrun, of_decide_eq_true hopens, quiescent_of_calls oneFile (fun _ => 0) hrun⟩

end FsSys

end Fs

end Mcertikos
