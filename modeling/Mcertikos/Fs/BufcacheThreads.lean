/-
Any number of threads on the buffer cache.

A thread calls `bufcache_read`, `bufcache_write`, `log_write` and
`bufcache_release`, and changes the data of buffers it holds.  The steps are the
sections that `bcache.lock` and the disk driver make atomic; between two of them
the other threads run.  `held` lists the buffers a thread has got from
`bufcache_get` and not yet released.  A thread may only release a buffer that it
has written or logged after its last change, which `modified` records.

* `ThreadOk`, `Own` — what every thread can rely on, and that no buffer has two
  holders;
* `inv_of_run` — this and the cache invariant hold in every reachable state;
* `kept_of_step` — a dirty buffer is written before its sector can change;
* `bufcache_coherent` — what this means for the cache.

Design notes: a sleeper may be woken at any time, since `ide_intr` wakes the
buffer's channel too.  The log header can change between any two steps, as
`begin_trans` and `commit_trans` change it.  A panic stops the thread.
-/
import Mcertikos.Fs.Log

namespace Mcertikos

open List Relation Function Ring Bcache

/-! ### Threads -/

/-- Who called `bufcache_read` or `bufcache_write`: the thread itself, or
`log_write(b)` with entry `i`. -/
inductive Caller where
  | user
  | logWrite (b i : ℕ)

/-- Where a thread is.  `get`: about to take the lock in `bufcache_get`;
`asleep b`: sleeping there on buffer `b`; `fill b`: in `bufcache_read` with `b`;
`writing b`: in the `ide_rw` of `bufcache_write`. -/
inductive Pc where
  | idle
  | get (dev sector : ℕ) (k : Caller)
  | asleep (b dev sector : ℕ) (k : Caller)
  | fill (b : ℕ) (k : Caller)
  | writing (b : ℕ) (k : Caller)
  | logCopy (lbuf b i : ℕ)
  | logRelease (lbuf b i : ℕ)
  | logDone (b i : ℕ)
  | panicked

structure FsThread where
  pc : Pc
  held : List ℕ

/-- The cache, the drives, the log header, the threads, and the marks. -/
structure CacheSys where
  c : Bcache
  disk : Disk
  log : Log
  threads : ℕ → FsThread
  modified : ℕ → Bool

/-- `thread_wakeup(b)`. -/
def FsThread.wake (b : ℕ) (x : FsThread) : FsThread :=
  match x.pc with
  | .asleep b' dev sector k => if b' = b then { x with pc := .get dev sector k } else x
  | _ => x

/-- Where `bufcache_read` returns to. -/
def Caller.afterRead (b : ℕ) : Caller → Pc
  | .user => .idle
  | .logWrite b₀ i => .logCopy b b₀ i

/-- Where `bufcache_write` returns to. -/
def Caller.afterWrite (b : ℕ) : Caller → Pc
  | .user => .idle
  | .logWrite b₀ i => .logRelease b b₀ i

namespace CacheSys

def setThread (s : CacheSys) (t : ℕ) (x : FsThread) : CacheSys :=
  { s with threads := update s.threads t x }

def setPc (s : CacheSys) (t : ℕ) (pc : Pc) : CacheSys :=
  s.setThread t { s.threads t with pc := pc }

def init (disk : Disk) (log : Log) : CacheSys where
  c := bufcacheInit
  disk := disk
  log := log
  threads := fun _ => ⟨.idle, []⟩
  modified := fun _ => false

/-- A thread changes the data of buffer `b`. -/
def setData (s : CacheSys) (b : ℕ) (data : Block) : CacheSys :=
  { s with
    c := s.c.setBuf b { s.c.buf b with data := data }
    modified := update s.modified b true }

/-- `b->flags |= B_DIRTY`. -/
def setDirty (s : CacheSys) (b : ℕ) : CacheSys :=
  { s with c := s.c.setBuf b { s.c.buf b with dirty := true } }

/-- `bufcache_release` by thread `t`. -/
def release (s : CacheSys) (t b : ℕ) (pc : Pc) : CacheSys :=
  { s with
    c := s.c.bufcacheRelease b
    threads := fun t' =>
      if t' = t then ⟨pc, (s.threads t).held.erase b⟩ else (s.threads t').wake b }

/-- One step of thread `t`, with requests restricted to the sectors in `ok`. -/
inductive Step (havedisk1 : Bool) (ok : ℕ → ℕ → Prop) : CacheSys → CacheSys → Prop
  | read {s : CacheSys} {t dev sector : ℕ} (hpc : (s.threads t).pc = .idle) (hok : ok dev sector) :
      Step havedisk1 ok s (s.setPc t (.get dev sector .user))
  | getTake {s : CacheSys} {t dev sector b : ℕ} {k : Caller} {c' : Bcache}
      (hpc : (s.threads t).pc = .get dev sector k) (h : s.c.bufcacheGet dev sector = .take b c') :
      Step havedisk1 ok s ({ s with c := c' }.setThread t ⟨.fill b k, b :: (s.threads t).held⟩)
  | getSleep {s : CacheSys} {t dev sector b : ℕ} {k : Caller}
      (hpc : (s.threads t).pc = .get dev sector k) (h : s.c.bufcacheGet dev sector = .sleep b) :
      Step havedisk1 ok s (s.setPc t (.asleep b dev sector k))
  | getPanic {s : CacheSys} {t dev sector : ℕ} {k : Caller}
      (hpc : (s.threads t).pc = .get dev sector k) (h : s.c.bufcacheGet dev sector = .noBuffers) :
      Step havedisk1 ok s (s.setPc t .panicked)
  | wake {s : CacheSys} {t b dev sector : ℕ} {k : Caller}
      (hpc : (s.threads t).pc = .asleep b dev sector k) :
      Step havedisk1 ok s (s.setPc t (.get dev sector k))
  | fillValid {s : CacheSys} {t b : ℕ} {k : Caller} (hpc : (s.threads t).pc = .fill b k)
      (hv : (s.c.buf b).valid = true) : Step havedisk1 ok s (s.setPc t (k.afterRead b))
  | fillRead {s : CacheSys} {t b : ℕ} {k : Caller} {c' : Bcache} {disk' : Disk}
      (hpc : (s.threads t).pc = .fill b k) (hv : (s.c.buf b).valid = false)
      (h : ideRw havedisk1 s.c s.disk b = some (c', disk')) :
      Step havedisk1 ok s ({ s with c := c', disk := disk' }.setPc t (k.afterRead b))
  | modify {s : CacheSys} {t b : ℕ} (data : Block) (hpc : (s.threads t).pc = .idle)
      (hb : b ∈ (s.threads t).held) : Step havedisk1 ok s (s.setData b data)
  | busyPanic {s : CacheSys} {t b : ℕ} (hpc : (s.threads t).pc = .idle)
      (hb : b ∈ (s.threads t).held) (hbusy : (s.c.buf b).busy = false) :
      Step havedisk1 ok s (s.setPc t .panicked)
  | write {s : CacheSys} {t b : ℕ} (hpc : (s.threads t).pc = .idle)
      (hb : b ∈ (s.threads t).held) (hbusy : (s.c.buf b).busy = true) :
      Step havedisk1 ok s ((s.setDirty b).setPc t (.writing b .user))
  | ideWrite {s : CacheSys} {t b : ℕ} {k : Caller} {c' : Bcache} {disk' : Disk}
      (hpc : (s.threads t).pc = .writing b k)
      (h : ideRw havedisk1 s.c s.disk b = some (c', disk')) :
      Step havedisk1 ok s
        ({ s with c := c', disk := disk', modified := update s.modified b false }.setPc t
          (k.afterWrite b))
  | idePanic {s : CacheSys} {t b : ℕ} {k : Caller}
      (hpc : (s.threads t).pc = .fill b k ∨ (s.threads t).pc = .writing b k)
      (h : ideRw havedisk1 s.c s.disk b = none) : Step havedisk1 ok s (s.setPc t .panicked)
  | release {s : CacheSys} {t b : ℕ} (hpc : (s.threads t).pc = .idle)
      (hb : b ∈ (s.threads t).held) (hbusy : (s.c.buf b).busy = true)
      (hm : s.modified b = false) : Step havedisk1 ok s (s.release t b .idle)
  | logPanic {s : CacheSys} {t b : ℕ} (hpc : (s.threads t).pc = .idle)
      (hb : b ∈ (s.threads t).held)
      (h : logsize ≤ s.log.lh.n ∨ s.log.size ≤ s.log.lh.n + 1 ∨ s.log.busy = false) :
      Step havedisk1 ok s (s.setPc t .panicked)
  | logStart {s : CacheSys} {t b i : ℕ} (hpc : (s.threads t).pc = .idle)
      (hb : b ∈ (s.threads t).held) (hn : s.log.lh.n < logsize) (hs : s.log.lh.n + 1 < s.log.size)
      (hbusy : s.log.busy = true) (hi : i = s.log.lh.slot (s.c.buf b).sector)
      (hok : ok (s.c.buf b).dev (s.log.start + i + 1)) :
      Step havedisk1 ok s
        ({ s with log := { s.log with lh := s.log.lh.setSector i (s.c.buf b).sector } }.setPc t
          (.get (s.c.buf b).dev (s.log.start + i + 1) (.logWrite b i)))
  | logCopy {s : CacheSys} {t lbuf b i : ℕ} (hpc : (s.threads t).pc = .logCopy lbuf b i) :
      Step havedisk1 ok s
        (((s.setData lbuf (s.c.buf b).data).setDirty lbuf).setPc t (.writing lbuf (.logWrite b i)))
  | logRelease {s : CacheSys} {t lbuf b i : ℕ} (hpc : (s.threads t).pc = .logRelease lbuf b i) :
      Step havedisk1 ok s (s.release t lbuf (.logDone b i))
  | logDone {s : CacheSys} {t b i : ℕ} (hpc : (s.threads t).pc = .logDone b i) :
      Step havedisk1 ok s
        (({ s with
            log := { s.log with
              lh := { s.log.lh with n := if i = s.log.lh.n then i + 1 else s.log.lh.n } }
            modified := update s.modified b false }.setDirty b).setPc t .idle)
  | trans {s : CacheSys} (log' : Log) : Step havedisk1 ok s { s with log := log' }

end CacheSys

/-! ### What a thread relies on -/

/-- The buffers a thread is working on. -/
def Caller.uses : Caller → List ℕ
  | .user => []
  | .logWrite b _ => [b]

def Pc.uses : Pc → List ℕ
  | .idle => []
  | .get _ _ k => k.uses
  | .asleep _ _ _ k => k.uses
  | .fill b k => b :: k.uses
  | .writing b k => b :: k.uses
  | .logCopy lbuf b _ => [lbuf, b]
  | .logRelease lbuf b _ => [lbuf, b]
  | .logDone b _ => [b]
  | .panicked => []

/-- The requests a thread is going to make. -/
def Pc.Request (ok : ℕ → ℕ → Prop) : Pc → Prop
  | .get dev sector _ => ok dev sector
  | .asleep _ dev sector _ => ok dev sector
  | _ => True

/-- The state of a thread, and of the buffers it holds. -/
structure ThreadOk (c : Bcache) (modified : ℕ → Bool) (x : FsThread) : Prop where
  nodup : x.held.Nodup
  uses_held : ∀ b ∈ x.pc.uses, b ∈ x.held
  uses_nodup : x.pc.uses.Nodup
  request : x.pc.Request OnDrive
  valid : ∀ b ∈ x.held, (∀ k, x.pc ≠ .fill b k) → x.pc ≠ .panicked → (c.buf b).valid = true
  dirty : ∀ b k, x.pc = .writing b k → (c.buf b).dirty = true
  clean : ∀ lbuf b i, x.pc = .logRelease lbuf b i → modified lbuf = false

variable {c : Bcache} {modified : ℕ → Bool} {x : FsThread}

/-- Not in the middle of `bufcache_read`, where the new buffer may still be invalid. -/
def Pc.filled : Pc → Bool
  | .fill .. | .panicked => false
  | _ => true

/-- Neither in a write nor at the release of a log buffer. -/
def Pc.settled : Pc → Bool
  | .writing .. | .logRelease .. => false
  | _ => true

theorem ThreadOk.all_valid (h : ThreadOk c modified x) (hpc : x.pc.filled = true) :
    ∀ b ∈ x.held, (c.buf b).valid = true := by
  refine fun b hb => h.valid b hb (fun k hk => ?_) fun hk => ?_
  · rw [hk] at hpc
    cases hpc
  · rw [hk] at hpc
    cases hpc

/-- A thread does not see changes of buffers it does not hold. -/
theorem ThreadOk.congr {c' : Bcache} {modified' : ℕ → Bool} (h : ThreadOk c modified x)
    (hag : ∀ b ∈ x.held, c'.buf b = c.buf b ∧ modified' b = modified b) :
    ThreadOk c' modified' x where
  nodup := h.nodup
  uses_held := h.uses_held
  uses_nodup := h.uses_nodup
  request := h.request
  valid := fun b hb hf hp => by
    rw [(hag b hb).1]
    exact h.valid b hb hf hp
  dirty := fun b k hpc => by
    rw [(hag b (h.uses_held b (by rw [hpc]; simp [Pc.uses]))).1]
    exact h.dirty b k hpc
  clean := fun lbuf b i hpc => by
    rw [(hag lbuf (h.uses_held lbuf (by rw [hpc]; simp [Pc.uses]))).2]
    exact h.clean lbuf b i hpc

/-- A thread in `bufcache_get`, waiting for the lock or asleep. -/
def Pc.Getting (pc : Pc) (dev sector : ℕ) (k : Caller) : Prop :=
  pc = .get dev sector k ∨ ∃ b, pc = .asleep b dev sector k

theorem ThreadOk.getting {pc' : Pc}
    {dev sector : ℕ} {k : Caller} (h : ThreadOk c modified x) (hpc : x.pc.Getting dev sector k)
    (hpc' : pc'.Getting dev sector k) : ThreadOk c modified { x with pc := pc' } := by
  have huses : ∀ {pc : Pc}, pc.Getting dev sector k → pc.uses = k.uses := by
    rintro pc (rfl | ⟨b, rfl⟩) <;> rfl
  have hreq : ∀ {pc : Pc}, pc.Getting dev sector k → (pc.Request OnDrive ↔ OnDrive dev sector) := by
    rintro pc (rfl | ⟨b, rfl⟩) <;> exact Iff.rfl
  constructor
  · exact h.nodup
  · have := h.uses_held
    rwa [huses hpc, ← huses hpc'] at this
  · have := h.uses_nodup
    rwa [huses hpc, ← huses hpc'] at this
  · exact (hreq hpc').mpr ((hreq hpc).mp h.request)
  · intro b hb _ _
    refine h.valid b hb (fun k' => ?_) ?_ <;> rcases hpc with hpc | ⟨_, hpc⟩ <;> rw [hpc] <;> simp
  · rintro b k' rfl
    rcases hpc' with hpc' | ⟨_, hpc'⟩ <;> cases hpc'
  · rintro lbuf b i rfl
    rcases hpc' with hpc' | ⟨_, hpc'⟩ <;> cases hpc'

theorem ThreadOk.wake (b : ℕ) (h : ThreadOk c modified x) : ThreadOk c modified (x.wake b) := by
  unfold FsThread.wake
  split
  · rename_i b' dev sector k hpc
    split
    · exact h.getting (.inr ⟨b', hpc⟩) (.inl rfl)
    · exact h
  · exact h

theorem FsThread.wake_held (b : ℕ) (x : FsThread) : (x.wake b).held = x.held := by
  unfold FsThread.wake
  split
  · split <;> rfl
  · rfl

namespace CacheSys

/-- Ownership: busy buffers are those held, by one thread only. -/
structure Own (s : CacheSys) (l : List ℕ) : Prop where
  held_mem : ∀ t, ∀ b ∈ (s.threads t).held, b ∈ l
  busy_iff : ∀ b ∈ l, (s.c.buf b).busy = true ↔ ∃ t, b ∈ (s.threads t).held
  excl : ∀ t t' b, b ∈ (s.threads t).held → b ∈ (s.threads t').held → t = t'
  ok : ∀ t, ThreadOk s.c s.modified (s.threads t)

structure Inv (s : CacheSys) (l : List ℕ) : Prop where
  cache : CacheInv s.c s.disk s.modified l
  own : Own s l

variable {s : CacheSys} {l l' : List ℕ} {t b : ℕ}

theorem inv_init (disk : Disk) (log : Log) : Inv (init disk log) (range nbuf).reverse where
  cache := cacheInv_bufcacheInit disk
  own :=
    { held_mem := nofun
      busy_iff := fun _ _ => ⟨fun h => absurd h Bool.false_ne_true, fun ⟨_, ht⟩ =>
        absurd ht not_mem_nil⟩
      excl := nofun
      ok := fun _ => ⟨nodup_nil, nofun, nodup_nil,
        trivial, nofun, nofun,
        nofun⟩ }

variable {s' : CacheSys} {disk' : Disk} {pc' : Pc} {x : Buf} {c c' : Bcache} {held : List ℕ}
    {modified : ℕ → Bool} {dev sector : ℕ} {k : Caller} {havedisk1 : Bool} {ok : ℕ → ℕ → Prop}

/-- What a step of thread `t` has to do to keep ownership: leave alone the buffers
of the others, and keep the busy flags in line with what it holds. -/
theorem Own.step (h : Own s l) (hperm : ∀ b, b ∈ l' ↔ b ∈ l)
    (hothers : ∀ t', t' ≠ t → (s'.threads t').held = (s.threads t').held ∧
      ThreadOk s'.c s'.modified (s'.threads t'))
    (hmem : ∀ b ∈ (s'.threads t).held, b ∈ l)
    (hexcl : ∀ b ∈ (s'.threads t).held, ∀ t', t' ≠ t → b ∉ (s.threads t').held)
    (hbusy : ∀ b ∈ l, (s'.c.buf b).busy = true ↔
      b ∈ (s'.threads t).held ∨ ∃ t', t' ≠ t ∧ b ∈ (s.threads t').held)
    (hok : ThreadOk s'.c s'.modified (s'.threads t)) : Own s' l' := by
  constructor
  · intro t' b hb
    rw [hperm]
    by_cases ht : t' = t
    · exact hmem b (ht ▸ hb)
    · rw [(hothers t' ht).1] at hb
      exact h.held_mem t' b hb
  · intro b hb
    rw [hperm] at hb
    rw [hbusy b hb]
    constructor
    · rintro (hin | ⟨t', ht, hin⟩)
      · exact ⟨t, hin⟩
      · exact ⟨t', by rw [(hothers t' ht).1]; exact hin⟩
    · rintro ⟨t', hin⟩
      by_cases ht : t' = t
      · exact .inl (ht ▸ hin)
      · exact .inr ⟨t', ht, by rw [← (hothers t' ht).1]; exact hin⟩
  · intro t1 t2 b h1 h2
    by_cases ht1 : t1 = t
    · by_cases ht2 : t2 = t
      · rw [ht1, ht2]
      · rw [(hothers t2 ht2).1] at h2
        exact absurd h2 (hexcl b (ht1 ▸ h1) t2 ht2)
    · rw [(hothers t1 ht1).1] at h1
      by_cases ht2 : t2 = t
      · exact absurd h1 (hexcl b (ht2 ▸ h2) t1 ht1)
      · rw [(hothers t2 ht2).1] at h2
        exact h.excl t1 t2 b h1 h2
  · intro t'
    by_cases ht : t' = t
    · exact ht ▸ hok
    · exact (hothers t' ht).2

theorem Own.busy_iff_split (h : Own s l) (t : ℕ) {b : ℕ} (hb : b ∈ l) : (s.c.buf b).busy = true ↔
      b ∈ (s.threads t).held ∨ ∃ t', t' ≠ t ∧ b ∈ (s.threads t').held := by
  rw [h.busy_iff b hb]
  constructor
  · rintro ⟨t', hin⟩
    by_cases ht : t' = t
    · exact .inl (ht ▸ hin)
    · exact .inr ⟨t', ht, hin⟩
  · rintro (hin | ⟨t', -, hin⟩)
    · exact ⟨t, hin⟩
    · exact ⟨t', hin⟩

theorem Inv.busy_of_held (h : Inv s l) (hb : b ∈ (s.threads t).held) : (s.c.buf b).busy = true :=
  (h.own.busy_iff b (h.own.held_mem t b hb)).mpr ⟨t, hb⟩

theorem Inv.used_of_held (h : Inv s l) (hb : b ∈ (s.threads t).held) : (s.c.buf b).dev ≠ noDev :=
  h.cache.used_of_busy (h.own.held_mem t b hb) (h.busy_of_held hb)

/-! ### The kinds of steps -/

@[simp] theorem setPc_self (s : CacheSys) (t : ℕ) (pc : Pc) :
    (s.setPc t pc).threads t = { s.threads t with pc := pc } := by simp [setPc, setThread]

theorem setPc_other (s : CacheSys) {t t' : ℕ} (pc : Pc) (h : t' ≠ t) :
    (s.setPc t pc).threads t' = s.threads t' := by simp [setPc, setThread, h]

/-- A step on one buffer the thread holds: its data and flags, its sector on the
disk and its mark may change, and the thread moves on. -/
theorem Inv.onBuf (h : Inv s l) (hb : b ∈ (s.threads t).held)
    {modified' : ℕ → Bool} {log' : Log} (hbusy : x.busy = (s.c.buf b).busy)
    (hdev : x.dev = (s.c.buf b).dev) (hsec : x.sector = (s.c.buf b).sector)
    (hdisk : ∀ a, a ≠ lba x.dev x.sector → disk' a = s.disk a)
    (hmod : ∀ i, i ≠ b → modified' i = s.modified i) (hdirty : x.dirty = true → x.valid = true)
    (hclean : x.valid = true → x.dirty = false → modified' b = false →
      x.data = disk' (lba x.dev x.sector))
    (hok : ThreadOk (s.c.setBuf b x) modified' { s.threads t with pc := pc' }) :
    Inv (CacheSys.setPc ⟨s.c.setBuf b x, disk', log', s.threads, modified'⟩ t pc') l := by
  have hx := hbusy.trans (h.busy_of_held hb)
  refine ⟨h.cache.setBuf (h.own.held_mem t b hb) (h.used_of_held hb) hdev hsec hdisk hmod
    (fun _ => hx) hdirty hclean, h.own.step (t := t) (fun _ => Iff.rfl) ?_ ?_ ?_ ?_ ?_⟩
  · intro t' ht
    rw [setPc_other _ _ ht]
    refine ⟨rfl, (h.own.ok t').congr fun b' hb' => ?_⟩
    have hne : b' ≠ b := fun he => ht (h.own.excl t' t b (he ▸ hb') hb)
    exact ⟨setBuf_other s.c x hne, hmod b' hne⟩
  · rw [setPc_self]
    exact h.own.held_mem t
  · rw [setPc_self]
    exact fun b' hb' t' ht hin => ht (h.own.excl t' t b' hin hb')
  · rw [setPc_self]
    intro b' hb'
    rw [← h.own.busy_iff_split t hb']
    by_cases he : b' = b
    · have := h.busy_of_held hb
      rw [he, this]
      exact ⟨fun _ => rfl, fun _ => (congrArg Buf.busy (setBuf_self s.c b x)).trans hx⟩
    · exact iff_of_eq (congrArg (fun y : Buf => y.busy = true) (setBuf_other s.c x he))
  · rw [setPc_self]
    exact hok

/-- A step that only moves a thread on. -/
theorem Inv.setPc (h : Inv s l) {log' : Log}
    (hok : ThreadOk s.c s.modified { s.threads t with pc := pc' }) :
    Inv (CacheSys.setPc ⟨s.c, s.disk, log', s.threads, s.modified⟩ t pc') l := by
  refine ⟨h.cache, h.own.step (t := t) (fun _ => Iff.rfl) ?_ ?_ ?_ ?_ ?_⟩
  · intro t' ht
    rw [setPc_other _ _ ht]
    exact ⟨rfl, h.own.ok t'⟩
  · rw [setPc_self]
    exact h.own.held_mem t
  · rw [setPc_self]
    exact fun b' hb' t' ht hin => ht (h.own.excl t' t b' hin hb')
  · rw [setPc_self]
    exact fun b' hb' => h.own.busy_iff_split t hb'
  · rw [setPc_self]
    exact hok

/-- The thread gets a buffer nobody holds. -/
theorem Inv.take (h : Inv s l) (hb : b ∈ l) (hfree : (s.c.buf b).busy = false)
    (hx : x.busy = true) (hcache : CacheInv (s.c.setBuf b x) s.disk s.modified l)
    (hok : ThreadOk (s.c.setBuf b x) s.modified ⟨pc', b :: (s.threads t).held⟩) :
    Inv ({ s with c := s.c.setBuf b x }.setThread t ⟨pc', b :: (s.threads t).held⟩) l := by
  have hnone : ∀ t', b ∉ (s.threads t').held := by
    exact fun t' hin => (nomatch hfree.symm.trans (h.busy_of_held hin))
  have hself : ({ s with c := s.c.setBuf b x }.setThread t ⟨pc', b :: (s.threads t).held⟩).threads t
      = ⟨pc', b :: (s.threads t).held⟩ := by simp [CacheSys.setThread]
  refine ⟨hcache, h.own.step (t := t) (fun _ => Iff.rfl) ?_ ?_ ?_ ?_ ?_⟩
  · intro t' ht
    have hother : ({ s with c := s.c.setBuf b x }.setThread t
        ⟨pc', b :: (s.threads t).held⟩).threads t' = s.threads t' := by
      simp [CacheSys.setThread, ht]
    rw [hother]
    refine ⟨rfl, (h.own.ok t').congr fun b' hb' => ⟨setBuf_other s.c x ?_, rfl⟩⟩
    exact fun he => hnone t' (he ▸ hb')
  · rw [hself]
    intro b' hb'
    rcases mem_cons.mp hb' with rfl | hb'
    · exact hb
    · exact h.own.held_mem t b' hb'
  · rw [hself]
    intro b' hb' t' ht hin
    rcases mem_cons.mp hb' with rfl | hb'
    · exact hnone t' hin
    · exact ht (h.own.excl t' t b' hin hb')
  · rw [hself]
    intro b' hb'
    by_cases he : b' = b
    · rw [he]
      exact ⟨fun _ => .inl mem_cons_self,
        fun _ => (congrArg Buf.busy (setBuf_self s.c b x)).trans hx⟩
    · have hsame := setBuf_other s.c x he
      have hsplit := h.own.busy_iff_split t hb'
      rw [← hsame] at hsplit
      simp only [mem_cons, he, false_or]
      exact hsplit
  · rw [hself]
    exact hok

/-- The thread releases a buffer without unwritten changes. -/
theorem Inv.release (h : Inv s l) (hb : b ∈ (s.threads t).held) (hm : s.modified b = false)
    (hok : ThreadOk s.c s.modified ⟨pc', (s.threads t).held.erase b⟩) :
    ∃ l', Inv (s.release t b pc') l' := by
  have hbl := h.own.held_mem t b hb
  have hnd := (h.own.ok t).nodup
  obtain ⟨l', hcache⟩ := h.cache.release hbl (h.used_of_held hb) hm
  have hmem : ∀ i, i ∈ l' ↔ i ∈ l := fun i =>
    (hcache.perm.trans h.cache.perm.symm).mem_iff
  have hbuf : ∀ i, i ≠ b → (s.c.bufcacheRelease b).buf i = s.c.buf i := fun i hi =>
    setBuf_other s.c _ hi
  have hself : (s.release t b pc').threads t = ⟨pc', (s.threads t).held.erase b⟩ := if_pos rfl
  refine ⟨l', hcache, h.own.step (t := t) hmem ?_ ?_ ?_ ?_ ?_⟩
  · intro t' ht
    have hother : (s.release t b pc').threads t' = (s.threads t').wake b := if_neg ht
    rw [hother, FsThread.wake_held]
    refine ⟨rfl, ThreadOk.wake b ((h.own.ok t').congr fun b' hb' => ⟨hbuf b' ?_, rfl⟩)⟩
    exact fun he => ht (h.own.excl t' t b (he ▸ hb') hb)
  · rw [hself]
    exact fun b' hb' => h.own.held_mem t b' (mem_of_mem_erase hb')
  · rw [hself]
    exact fun b' hb' t' ht hin => ht (h.own.excl t' t b' hin (mem_of_mem_erase hb'))
  · rw [hself]
    intro b' hb'
    by_cases he : b' = b
    · rw [he]
      have hoff : ((s.release t b pc').c.buf b).busy = false :=
        congrArg Buf.busy (setBuf_self s.c b { s.c.buf b with busy := false })
      rw [hoff]
      refine ⟨fun hf => absurd hf Bool.false_ne_true, ?_⟩
      rintro (hin | ⟨t', ht, hin⟩)
      · exact absurd hin (fun hin => (Nodup.not_mem_erase hnd) hin)
      · exact absurd (h.own.excl t' t b hin hb) ht
    · have hsame : (s.release t b pc').c.buf b' = s.c.buf b' := hbuf b' he
      rw [hsame, h.own.busy_iff_split t hb', mem_erase_of_ne he]
  · rw [hself]
    refine hok.congr fun b' hb' => ⟨hbuf b' ?_, rfl⟩
    rintro rfl
    exact Nodup.not_mem_erase hnd hb'

/-! ### One lemma per step -/

/-- A thread all of whose buffers are valid may be at any such point. -/
theorem threadOk_of_valid {pc : Pc}
    (hnd : held.Nodup) (huses : ∀ b ∈ pc.uses, b ∈ held) (hund : pc.uses.Nodup)
    (hreq : pc.Request OnDrive) (hv : ∀ b ∈ held, (c.buf b).valid = true)
    (hpc : pc.settled = true) : ThreadOk c modified ⟨pc, held⟩ := by
  refine ⟨hnd, huses, hund, hreq, fun b hb _ _ => hv b hb, ?_, ?_⟩
  · rintro _ _ rfl
    cases hpc
  · rintro _ _ _ rfl
    cases hpc

theorem threadOk_panicked (hnd : held.Nodup) : ThreadOk c modified ⟨.panicked, held⟩ :=
  ⟨hnd, nofun, nodup_nil, trivial, fun _ _ _ hp => absurd rfl hp, nofun, nofun⟩

/-- Buffers stay valid when one of them is replaced by a valid one. -/
theorem valid_setBuf {b b' : ℕ} (hx : x.valid = true)
    (hv : ∀ b ∈ held, (c.buf b).valid = true) (hb' : b' ∈ held) :
    ((c.setBuf b x).buf b').valid = true := by
  by_cases he : b' = b
  · rw [he, setBuf_self]
    exact hx
  · rw [setBuf_other c x he]
    exact hv b' hb'

theorem Inv.valid_of_idle (h : Inv s l) (hpc : (s.threads t).pc = .idle) :
    ∀ b ∈ (s.threads t).held, (s.c.buf b).valid = true :=
  (h.own.ok t).all_valid (by rw [hpc]; rfl)

theorem Inv.panic (h : Inv s l) (t : ℕ) : Inv (s.setPc t .panicked) l :=
  h.setPc (threadOk_panicked (h.own.ok t).nodup)

theorem setPc_idle (s : CacheSys) {t : ℕ} (hpc : (s.threads t).pc = .idle) :
    s.setPc t .idle = s := by
  have : ({ s.threads t with pc := .idle } : FsThread) = s.threads t := by rw [← hpc]
  unfold CacheSys.setPc CacheSys.setThread
  rw [this, update_eq_self]

theorem Inv.getTake (h : Inv s l)
    (hpc : (s.threads t).pc = .get dev sector k) (hget : s.c.bufcacheGet dev sector = .take b c') :
    Inv ({ s with c := c' }.setThread t ⟨.fill b k, b :: (s.threads t).held⟩) l := by
  have hx := h.own.ok t
  have hon : OnDrive dev sector := by
    have := hx.request
    rw [hpc] at this
    exact this
  -- the thread with its new buffer, whatever that buffer's contents
  have hthread : ∀ x : Buf, (s.c.buf b).busy = false →
      ThreadOk (s.c.setBuf b x) s.modified ⟨.fill b k, b :: (s.threads t).held⟩ := by
    intro x hfree
    have hbh : b ∉ (s.threads t).held := fun hin => (nomatch hfree.symm.trans (h.busy_of_held hin))
    have huses : ∀ b' ∈ k.uses, b' ∈ (s.threads t).held := fun b' hb' =>
      hx.uses_held b' (by rw [hpc]; exact hb')
    have hknd : k.uses.Nodup := by
      have := hx.uses_nodup
      rw [hpc] at this
      exact this
    refine ⟨nodup_cons.mpr ⟨hbh, hx.nodup⟩, ?_, ?_, trivial, ?_, nofun, nofun⟩
    · intro b' hb'
      rcases mem_cons.mp hb' with rfl | hb'
      · exact mem_cons_self
      · exact mem_cons_of_mem _ (huses b' hb')
    · exact nodup_cons.mpr ⟨fun hin => hbh (huses b hin), hknd⟩
    · intro b' hb' hf _
      have hne : b' ≠ b := fun he => hf k (by rw [he])
      rw [setBuf_other s.c x hne]
      exact hx.all_valid (by rw [hpc]; rfl) b' ((mem_cons.mp hb').resolve_left hne)
  rcases bufcacheGet_cases h.cache.ring h.cache.length_eq dev sector with
    ⟨b', hb', hd, hs, ⟨hfree, he⟩ | ⟨_, he⟩⟩ | ⟨hnew, ⟨b', hb', hfree, _, he⟩ | ⟨_, he⟩⟩
  · rw [he] at hget
    injection hget with h1 h2
    subst h1 h2
    refine h.take hb' hfree rfl ?_ (hthread _ hfree)
    exact h.cache.setBuf hb' (hd ▸ hon.used) rfl rfl (fun _ _ => rfl) (fun _ _ => rfl) (fun _ => rfl)
      (h.cache.dirty_valid b' hb') (h.cache.clean b' hb')
  · rw [he] at hget
    cases hget
  · rw [he] at hget
    injection hget with h1 h2
    subst h1 h2
    exact h.take hb' hfree rfl (h.cache.recycle hon hnew) (hthread _ hfree)
  · rw [he] at hget
    cases hget

/-- The thread reaches the point after `bufcache_read`. -/
theorem threadOk_afterRead {x : FsThread}
    (hx : ThreadOk s.c s.modified x) (hpc : x.pc = .fill b k) (hv : (c.buf b).valid = true)
    (hag : ∀ i, i ≠ b → c.buf i = s.c.buf i) :
    ThreadOk c modified { x with pc := k.afterRead b } := by
  have huses := hx.uses_held
  have hund := hx.uses_nodup
  rw [hpc] at huses hund
  refine threadOk_of_valid hx.nodup ?_ ?_ ?_ ?_ ?_
  · cases k with
    | user => exact nofun
    | logWrite b0 i => exact huses
  · cases k with
    | user => exact nodup_nil
    | logWrite b0 i => exact hund
  · cases k <;> trivial
  · intro b' hb'
    by_cases he : b' = b
    · rw [he]
      exact hv
    · rw [hag b' he]
      exact hx.valid b' hb' (fun k' hf => he (by rw [hpc] at hf; injection hf with h1; exact h1.symm))
        (by rw [hpc]; simp)
  · cases k <;> rfl

theorem Inv.fillRead (h : Inv s l)
    (hpc : (s.threads t).pc = .fill b k) (hv : (s.c.buf b).valid = false)
    (hide : ideRw havedisk1 s.c s.disk b = some (c', disk')) :
    Inv ({ s with c := c', disk := disk' }.setPc t (k.afterRead b)) l := by
  have hx := h.own.ok t
  have hb : b ∈ (s.threads t).held := hx.uses_held b (by rw [hpc]; exact mem_cons_self)
  obtain ⟨rfl, rfl⟩ := ideRw_of_clean (h.cache.clean_of_invalid (h.own.held_mem t b hb) hv) hide
  refine h.onBuf hb rfl rfl rfl (fun _ _ => rfl) (fun _ _ => rfl) (fun _ => rfl) (fun _ _ _ => rfl) ?_
  exact threadOk_afterRead hx hpc (by rw [setBuf_self]) fun i hi => setBuf_other s.c _ hi

/-- A change of data or flags by a thread that stays idle or goes on to the
request of `bufcache_write`. -/
theorem Inv.write (h : Inv s l) (hpc : (s.threads t).pc = .idle) (hb : b ∈ (s.threads t).held) :
    Inv ((s.setDirty b).setPc t (.writing b .user)) l := by
  have hv := h.valid_of_idle hpc
  refine h.onBuf hb rfl rfl rfl (fun _ _ => rfl) (fun _ _ => rfl) (fun _ => hv b hb) nofun ?_
  refine ⟨(h.own.ok t).nodup, ?_, nodup_singleton b, trivial, ?_, ?_, nofun⟩
  · exact fun b' hb' => by rw [mem_singleton.mp hb']; exact hb
  · exact fun b' hb' _ _ => valid_setBuf (hv b hb) hv hb'
  · intro b' k hpc'
    injection hpc' with h1
    rw [← h1, setBuf_self]

theorem Inv.modify (h : Inv s l) (hpc : (s.threads t).pc = .idle) (hb : b ∈ (s.threads t).held)
    (data : Block) : Inv (s.setData b data) l := by
  have hv := h.valid_of_idle hpc
  have hidle : (s.setData b data).setPc t .idle = s.setData b data := setPc_idle _ hpc
  rw [← hidle]
  refine h.onBuf hb rfl rfl rfl (fun _ _ => rfl) (fun i hi => update_of_ne hi _ _)
    (h.cache.dirty_valid b (h.own.held_mem t b hb)) (fun _ _ hm => ?_) ?_
  · rw [update_self] at hm
    cases hm
  · exact threadOk_of_valid (h.own.ok t).nodup nofun nodup_nil trivial
      (fun _ => valid_setBuf (hv b hb) hv) rfl

/-- The write request of `bufcache_write`: it stores the data of a dirty buffer. -/
theorem Inv.ideWrite (h : Inv s l) (hpc : (s.threads t).pc = .writing b k)
    (hide : ideRw havedisk1 s.c s.disk b = some (c', disk')) :
    Inv ({ s with
        c := c', disk := disk', modified := update s.modified b false }.setPc t
          (k.afterWrite b)) l := by
  have hx := h.own.ok t
  have huses := hx.uses_held
  have hund := hx.uses_nodup
  rw [hpc] at huses hund
  have hb : b ∈ (s.threads t).held := huses b mem_cons_self
  have hv := hx.all_valid (by rw [hpc]; rfl)
  obtain ⟨rfl, rfl⟩ := ideRw_of_dirty (hx.dirty b k hpc) hide
  refine h.onBuf hb rfl rfl rfl (fun a ha => update_of_ne ha _ _) (fun i hi => update_of_ne hi _ _)
    (fun _ => rfl) (fun _ _ _ => by rw [update_self]) ?_
  · have hvalid : ∀ b' ∈ (s.threads t).held,
        ((s.c.setBuf b { s.c.buf b with valid := true, dirty := false }).buf b').valid = true :=
      fun _ => valid_setBuf rfl hv
    cases k with
    | user =>
      exact threadOk_of_valid hx.nodup nofun nodup_nil trivial hvalid rfl
    | logWrite b0 i =>
      refine ⟨hx.nodup, huses, hund, trivial, fun b' hb' _ _ => hvalid b' hb',
        nofun, fun lbuf b' i' hpc' => ?_⟩
      injection hpc' with h1
      rw [← h1, update_self]

theorem Inv.logCopy (h : Inv s l) {lbuf i : ℕ} (hpc : (s.threads t).pc = .logCopy lbuf b i) :
    Inv (((s.setData lbuf (s.c.buf b).data).setDirty lbuf).setPc t
      (.writing lbuf (.logWrite b i))) l := by
  have hx := h.own.ok t
  have huses := hx.uses_held
  have hund := hx.uses_nodup
  rw [hpc] at huses hund
  have hb : lbuf ∈ (s.threads t).held := huses lbuf mem_cons_self
  have hv := hx.all_valid (by rw [hpc]; rfl)
  have hc : ((s.setData lbuf (s.c.buf b).data).setDirty lbuf).c
      = s.c.setBuf lbuf { s.c.buf lbuf with data := (s.c.buf b).data, dirty := true } := by
    unfold CacheSys.setDirty CacheSys.setData
    dsimp only
    rw [setBuf_setBuf, setBuf_self]
  have heq : ((s.setData lbuf (s.c.buf b).data).setDirty lbuf)
      = ⟨s.c.setBuf lbuf { s.c.buf lbuf with data := (s.c.buf b).data, dirty := true }, s.disk,
          s.log, s.threads, update s.modified lbuf true⟩ := by
    rw [← hc]
    rfl
  rw [heq]
  refine h.onBuf hb rfl rfl rfl (fun _ _ => rfl) (fun i hi => update_of_ne hi _ _)
    (fun _ => hv lbuf hb) nofun ?_
  refine ⟨hx.nodup, huses, hund, trivial, ?_, ?_, nofun⟩
  · exact fun b' hb' _ _ => valid_setBuf (hv lbuf hb) hv hb'
  · intro b' k hpc'
    injection hpc' with h1
    rw [← h1, setBuf_self]

theorem Inv.logDone (h : Inv s l) {i : ℕ} (hpc : (s.threads t).pc = .logDone b i) (log' : Log) :
    Inv (({ s with
        log := log', modified := update s.modified b false }.setDirty b).setPc t .idle)
      l := by
  have hx := h.own.ok t
  have hb : b ∈ (s.threads t).held := hx.uses_held b (by rw [hpc]; exact mem_cons_self)
  have hv := hx.all_valid (by rw [hpc]; rfl)
  refine h.onBuf hb rfl rfl rfl (fun _ _ => rfl) (fun i hi => update_of_ne hi _ _)
    (fun _ => hv b hb) nofun ?_
  exact threadOk_of_valid hx.nodup nofun nodup_nil trivial (fun _ => valid_setBuf (hv b hb) hv) rfl

/-! ### Runs -/

theorem inv_step (h : Inv s l) (hstep : Step havedisk1 OnDrive s s') : ∃ l', Inv s' l' := by
  cases hstep with
  | @read t dev sector hpc hok =>
    exact ⟨l, h.setPc (threadOk_of_valid (h.own.ok t).nodup nofun nodup_nil hok
      (h.valid_of_idle hpc) rfl)⟩
  | getTake hpc hget => exact ⟨l, h.getTake hpc hget⟩
  | @getSleep t dev sector b k hpc hget =>
    exact ⟨l, h.setPc ((h.own.ok t).getting (.inl hpc) (.inr ⟨b, rfl⟩))⟩
  | getPanic | busyPanic | idePanic | logPanic => exact ⟨l, h.panic _⟩
  | @wake t b dev sector k hpc =>
    exact ⟨l, h.setPc ((h.own.ok t).getting (.inr ⟨b, hpc⟩) (.inl rfl))⟩
  | fillValid hpc hv => exact ⟨l, h.setPc (threadOk_afterRead (h.own.ok _) hpc hv fun _ _ => rfl)⟩
  | fillRead hpc hv hide => exact ⟨l, h.fillRead hpc hv hide⟩
  | modify data hpc hb => exact ⟨l, h.modify hpc hb data⟩
  | write hpc hb => exact ⟨l, h.write hpc hb⟩
  | ideWrite hpc hide => exact ⟨l, h.ideWrite hpc hide⟩
  | @release t b hpc hb _ hm =>
    refine h.release hb hm (threadOk_of_valid ((h.own.ok t).nodup.erase b) nofun nodup_nil trivial
      ?_ rfl)
    exact fun b' hb' => h.valid_of_idle hpc b' (mem_of_mem_erase hb')
  | @logStart t b i hpc hb _ _ _ _ hok =>
    exact ⟨l, h.setPc (threadOk_of_valid (h.own.ok t).nodup
      (fun b' hb' => by rw [mem_singleton.mp hb']; exact hb) (nodup_singleton b) hok
      (h.valid_of_idle hpc) rfl)⟩
  | logCopy hpc => exact ⟨l, h.logCopy hpc⟩
  | @logRelease t lbuf b i hpc =>
    have hx := h.own.ok t
    have huses := hx.uses_held
    have hund := hx.uses_nodup
    rw [hpc] at huses hund
    refine h.release (huses lbuf mem_cons_self) (hx.clean lbuf b i hpc)
      (threadOk_of_valid (hx.nodup.erase lbuf) ?_ (nodup_singleton b) trivial ?_ rfl)
    · intro b' hb'
      rw [mem_singleton.mp hb']
      have hne : b ≠ lbuf := fun he => (nodup_cons.mp hund).1 (by simp [he])
      exact (mem_erase_of_ne hne).mpr (huses b (by simp [Pc.uses]))
    · exact fun b' hb' => hx.all_valid (by rw [hpc]; rfl) b' (mem_of_mem_erase hb')
  | logDone hpc => exact ⟨l, h.logDone hpc _⟩
  | trans log' => exact ⟨l, h.cache, h.own.held_mem, h.own.busy_iff, h.own.excl, h.own.ok⟩

theorem inv_of_run (disk : Disk) (log : Log)
    (hrun : ReflTransGen (Step havedisk1 OnDrive) (init disk log) s) :
    ∃ l, Inv s l := by
  induction hrun with
  | refl => exact ⟨_, inv_init disk log⟩
  | tail _ hstep ih =>
    obtain ⟨l, hl⟩ := ih
    exact inv_step hl hstep

/-- Buffer `b` still has the sector it has in `s`, and it is still dirty or its data
have been written. -/
def Kept (s s' : CacheSys) (b : ℕ) : Prop :=
  (s'.c.buf b).dev = (s.c.buf b).dev ∧ (s'.c.buf b).sector = (s.c.buf b).sector ∧
    ((s'.c.buf b).dirty = true ∨
      s'.disk (lba (s.c.buf b).dev (s.c.buf b).sector) = (s.c.buf b).data)

theorem kept_of_buf_eq {s : CacheSys} {b : ℕ} (hd : (s.c.buf b).dirty = true)
    (h : s'.c.buf b = s.c.buf b) : Kept s s' b := by
  unfold Kept
  rw [h]
  exact ⟨rfl, rfl, .inl hd⟩

/-- A step on buffer `b'` keeps `b`, if it does when they are the same. -/
theorem kept_setBuf {s : CacheSys} {b b' : ℕ} (hd : (s.c.buf b).dirty = true)
    (hc : s'.c.buf = (s.c.setBuf b' x).buf)
    (hx : b = b' → x.dev = (s.c.buf b).dev ∧ x.sector = (s.c.buf b).sector ∧
      (x.dirty = true ∨ s'.disk (lba (s.c.buf b).dev (s.c.buf b).sector) = (s.c.buf b).data)) :
    Kept s s' b := by
  by_cases he : b = b'
  · unfold Kept
    rw [hc, ← he, setBuf_self]
    exact hx he
  · exact kept_of_buf_eq hd (by rw [hc, setBuf_other s.c x he])

/-- A dirty buffer is not recycled, and is only marked clean when it is written. -/
theorem kept_of_step (h : Inv s l)
    (hstep : Step havedisk1 ok s s') (hb : b ∈ l) (hd : (s.c.buf b).dirty = true) :
    Kept s s' b := by
  cases hstep with
  | getTake hpc hget =>
    rcases bufcacheGet_cases h.cache.ring h.cache.length_eq _ _ with
      ⟨b', hb', -, -, ⟨-, he⟩ | ⟨-, he⟩⟩ | ⟨-, ⟨b', hb', -, hclean, he⟩ | ⟨-, he⟩⟩
    · rw [he, GetResult.take.injEq] at hget
      rw [← hget.2]
      exact kept_setBuf hd rfl fun heq => ⟨by rw [heq], by rw [heq], .inl (by rw [← heq]; exact hd)⟩
    · rw [he] at hget
      cases hget
    · rw [he, GetResult.take.injEq] at hget
      rw [← hget.2]
      refine kept_setBuf hd rfl fun heq => ?_
      rw [← heq, hd] at hclean
      cases hclean
    · rw [he] at hget
      cases hget
  | @fillRead t b' k c' disk' hpc hv hide =>
    -- only invalid buffers are read, and those are not dirty
    have hne : b ≠ b' := fun heq => by
      have := h.cache.dirty_valid b hb hd
      rw [heq, hv] at this
      cases this
    refine kept_of_buf_eq hd ?_
    show c'.buf b = _
    rw [ideRw_buf_other hide hne]
  | modify | release | logRelease =>
    exact kept_setBuf hd rfl fun heq => ⟨by rw [heq], by rw [heq], .inl (by rw [← heq]; exact hd)⟩
  | write | logDone =>
    exact kept_setBuf hd rfl fun heq => ⟨by rw [heq], by rw [heq], .inl rfl⟩
  | @ideWrite t b' k c' disk' hpc hide =>
    by_cases heq : b = b'
    · subst heq
      obtain ⟨rfl, rfl⟩ := ideRw_of_dirty hd hide
      exact kept_setBuf hd rfl fun _ => ⟨rfl, rfl, .inr (update_self ..)⟩
    · refine kept_of_buf_eq hd ?_
      show c'.buf b = _
      rw [ideRw_buf_other hide heq]
  | @logCopy t lbuf b' i hpc =>
    refine kept_setBuf hd (congrArg Bcache.buf (setBuf_setBuf s.c lbuf _ _)) fun heq => ?_
    subst heq
    exact ⟨by simp [setData], by simp [setData], .inl rfl⟩
  | _ => exact kept_of_buf_eq hd rfl

/-- The coherence of the cache in a state: one list with every buffer, at most one
buffer for a sector, at most one holder of a buffer, clean buffers agree with the
disk, and the next step of a thread keeps every dirty buffer. -/
structure Coherent (havedisk1 : Bool) (ok : ℕ → ℕ → Prop) (s : CacheSys) : Prop where
  list : ∃ l, IsRing s.c.links nbuf l ∧ l.Perm (range nbuf)
  unique : ∀ b < nbuf, ∀ b' < nbuf, (s.c.buf b).dev = (s.c.buf b').dev →
    (s.c.buf b).sector = (s.c.buf b').sector → (s.c.buf b).dev ≠ noDev → b = b'
  holder : ∀ t t' b, b ∈ (s.threads t).held → b ∈ (s.threads t').held → t = t'
  held_once : ∀ t, (s.threads t).held.Nodup
  clean : ∀ b < nbuf, (s.c.buf b).valid = true → (s.c.buf b).busy = false →
    (s.c.buf b).dirty = false → (s.c.buf b).data = s.disk (lba (s.c.buf b).dev (s.c.buf b).sector)
  dirty : ∀ s', Step havedisk1 ok s s' → ∀ b < nbuf, (s.c.buf b).dirty = true → Kept s s' b

theorem Inv.coherent (h : Inv s l) (havedisk1 : Bool) (ok : ℕ → ℕ → Prop) :
    Coherent havedisk1 ok s := by
  have hmem : ∀ b, b < nbuf → b ∈ l := fun b hb =>
    h.cache.perm.mem_iff.mpr (mem_range.mpr hb)
  constructor
  · exact ⟨l, h.cache.ring, h.cache.perm⟩
  · exact fun b hb b' hb' => h.cache.unique b (hmem b hb) b' (hmem b' hb')
  · exact h.own.excl
  · exact fun t => (h.own.ok t).nodup
  · intro b hb hv hbusy hd
    refine h.cache.clean b (hmem b hb) hv hd ?_
    -- a change not yet written would make it busy
    by_contra hm
    have := h.cache.modified_busy b (hmem b hb) (by simpa using hm)
    rw [hbusy] at this
    cases this
  · exact fun s' hstep b hb hd => kept_of_step h hstep (hmem b hb) hd

/-- **The buffer cache is coherent** in every run in which the threads ask for sectors
of the two drives. -/
theorem bufcache_coherent {havedisk1 : Bool} {disk : Disk} {log : Log} {s : CacheSys}
    (hrun : ReflTransGen (Step havedisk1 OnDrive) (init disk log) s) :
    Coherent havedisk1 OnDrive s := by
  obtain ⟨l, hl⟩ := inv_of_run disk log hrun
  exact hl.coherent havedisk1 OnDrive

/-! ### Device numbers that are not drives -/

theorem bufcacheGet_recycle {b : ℕ}
    (hfind : scan c.links.next nbuf (fun b => (c.buf b).dev = dev ∧ (c.buf b).sector = sector)
      (nbuf + 1) (c.links.next nbuf) = some nbuf)
    (hfree : scan c.links.prev nbuf (fun b => (c.buf b).busy = false ∧ (c.buf b).dirty = false)
      (nbuf + 1) (c.links.prev nbuf) = some b) (hb : b ≠ nbuf) :
    c.bufcacheGet dev sector
      = .take b (c.setBuf b ⟨true, false, false, dev, sector, (c.buf b).data⟩) := by
  unfold bufcacheGet
  rw [hfind]
  simp only [ne_eq, not_true_eq_false, if_false, hfree, hb, not_false_eq_true, if_true]

/-- A `bufcache_read` that nothing interrupts, of a sector that is not cached. -/
theorem run_bufcacheRead {s : CacheSys} {t b : ℕ}
    (hidle : (s.threads t).pc = .idle) (hok : ok dev sector)
    (hdev : ¬ (dev ≠ 0 ∧ havedisk1 = false))
    (hget : s.c.bufcacheGet dev sector
      = .take b (s.c.setBuf b ⟨true, false, false, dev, sector, (s.c.buf b).data⟩)) :
    ReflTransGen (Step havedisk1 ok) s
      ({ s with
          c := s.c.setBuf b ⟨true, true, false, dev, sector, s.disk (lba dev sector)⟩ }.setThread t
        ⟨.idle, b :: (s.threads t).held⟩) := by
  set s1 := s.setPc t (.get dev sector .user) with hs1
  set s2 : CacheSys := { s1 with
    c := s.c.setBuf b ⟨true, false, false, dev, sector, (s.c.buf b).data⟩ }.setThread t
      ⟨.fill b .user, b :: (s1.threads t).held⟩ with hs2
  have hide : ideRw havedisk1 s2.c s2.disk b
      = some (s2.c.setBuf b ⟨true, true, false, dev, sector, s.disk (lba dev sector)⟩, s.disk) := by
    simp [ideRw, hs2, hs1, setThread, setPc, hdev]
  have h1 : Step havedisk1 ok s s1 := .read hidle hok
  have h2 : Step havedisk1 ok s1 s2 := .getTake (by rw [hs1, setPc_self]) hget
  have h3 : Step havedisk1 ok s2 _ :=
    .fillRead (t := t) (b := b) (k := .user) (by simp [hs2, setThread]) (by simp [hs2, setThread])
      hide
  refine ((ReflTransGen.single h1).tail h2).tail ?_
  simpa [hs2, hs1, setPc, setThread, Caller.afterRead, setBuf_setBuf] using h3

def emptyDisk : Disk := fun _ => default

def noLog : Log := ⟨0, 0, false, 0, ⟨0, fun _ => 0⟩⟩

/-- A block that starts with `v`. -/
def startsWith (v : ℕ) : Block := Block.write32 default 0 v

/-- Thread 0 has read sector 5 of device 1 into buffer 0. -/
def readOne : CacheSys :=
  { init emptyDisk noLog with
    c := bufcacheInit.setBuf 0 ⟨true, true, false, 1, 5, default⟩ }.setThread 0 ⟨.idle, [0]⟩

/-- It has also read sector 5 of "device 3" into buffer 1. -/
def readThree : CacheSys :=
  { readOne with
    c := readOne.c.setBuf 1 ⟨true, true, false, 3, 5, default⟩ }.setThread 0 ⟨.idle, [1, 0]⟩

theorem run_readOne (hok : ok 1 5) : ReflTransGen (Step true ok) (init emptyDisk noLog) readOne :=
  run_bufcacheRead (t := 0) rfl hok (by simp)
    (bufcacheGet_recycle (b := 0) (by decide +kernel) (by decide) (by decide)) 

theorem bufcache_coherent_readOne : Coherent true OnDrive readOne :=
  bufcache_coherent (run_readOne (by decide))

/-- Device numbers 1 and 3 are the same drive for `ide_start`, but different devices
for the cache: when sector 5 of one is written, the buffer of the other is stale. -/
theorem bufcache_stale_alias :
    ∃ s, ReflTransGen (Step true fun _ _ => True) (init emptyDisk noLog) s ∧
      (s.c.buf 0).valid = true ∧ (s.c.buf 0).busy = false ∧ (s.c.buf 0).dirty = false ∧
      (s.c.buf 0).data ≠ s.disk (lba (s.c.buf 0).dev (s.c.buf 0).sector) := by
  have h₁ : ReflTransGen (Step true fun _ _ => True) (init emptyDisk noLog) readOne :=
    run_readOne trivial
  have h₂ : ReflTransGen (Step true fun _ _ => True) readOne readThree :=
    run_bufcacheRead (t := 0) rfl trivial (by simp)
      (bufcacheGet_recycle (b := 1) (by decide +kernel) (by decide) (by decide))
  set s₃ := readThree.setData 1 (startsWith 1)
  have h₃ : Step true (fun _ _ => True) readThree s₃ :=
    .modify (t := 0) (startsWith 1) rfl (by decide)
  set s₄ := (s₃.setDirty 1).setPc 0 (.writing 1 .user)
  have h₄ : Step true (fun _ _ => True) s₃ s₄ := .write rfl (by decide) (by decide)
  have hbuf : s₄.c.buf 1 = ⟨true, true, true, 3, 5, startsWith 1⟩ := rfl
  set s₅ : CacheSys := { s₄ with
    c := s₄.c.setBuf 1 ⟨true, true, false, 3, 5, startsWith 1⟩
    disk := update s₄.disk (lba 3 5) (startsWith 1)
    modified := update s₄.modified 1 false }.setPc 0 .idle
  have h₅ : Step true (fun _ _ => True) s₄ s₅ :=
    .ideWrite (t := 0) (b := 1) (k := .user) rfl (by simp [ideRw, hbuf])
  have h₆ : Step true (fun _ _ => True) s₅ (s₅.release 0 0 .idle) :=
    .release rfl (by decide) (by decide) (by decide)
  refine ⟨_, ((((h₁.trans h₂).tail h₃).tail h₄).tail h₅).tail h₆, by decide, by decide, by decide, ?_⟩
  intro he
  have := congrArg (fun b : Block => b.1 0) he
  revert this
  decide +kernel

end CacheSys

end Mcertikos
