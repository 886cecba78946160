/-
The request queue of the disk driver (`dev/disk/ide.c`).

Threads call `ide_rw` on buffers, which it appends to `idequeue`; `ide_intr` takes the
head off the queue when its command is done and starts the command of the next one.
Every section under `ide_lk` is one step, the disk takes its own, and the steps of all
threads, the handler and the disk interleave.

* `Ide.Inv` — queue, flags, device and waiting threads fit together;
* `Ide.Inv.step`, `Ide.Synced.step` — what every step keeps;
* `Ide.queue_of_run` — the command in progress is the head's, requests complete in order,
  and a returning `ide_rw` has synchronised its buffer.

Design notes: `entering` and `waiting` keep the buffer as it was when `ide_rw` was
called, for the statements only.  A buffer that no call works on may be changed
arbitrarily at any time.  The disk reports no errors.
-/
import Mcertikos.Fs.Bufcache
import Mcertikos.Lib.Chain

namespace Mcertikos

open List Function

/-- A command of the controller; a write carries the data `outsl` has sent. -/
inductive IdeCmd where
  | read (addr : ℕ)
  | write (addr : ℕ) (data : Block)

/-- The address `ide_start` sends for a buffer. -/
@[irreducible]
def Buf.addr (x : Buf) : ℕ := lba x.dev x.sector

/-- The command `ide_start` sends for a buffer. -/
def Buf.cmd (x : Buf) : IdeCmd :=
  if x.dirty = true then .write x.addr x.data else .read x.addr

namespace IdeCmd

/-- What the command does to the disk. -/
def disk (d : Disk) : IdeCmd → Disk
  | read _ => d
  | write a data => update d a data

/-- The data register after the command. -/
def data (d : Disk) : IdeCmd → Block
  | read a => d a
  | write _ data => data

end IdeCmd

/-- The controller.  A command is in progress from its start until its interrupt is
handled; `raised` is the part after the disk has executed it. -/
inductive IdeDevice where
  | ready
  | busy (c : IdeCmd)
  | raised (c : IdeCmd) (data : Block)

def IdeDevice.cmd : IdeDevice → Option IdeCmd
  | ready => none
  | busy c => some c
  | raised c _ => some c

/-- Where a thread is: outside, in `ide_rw` of `b` before it has `ide_lk`, or in its loop.
`x` is the buffer at the call. -/
inductive IdePc where
  | out
  | entering (b : ℕ) (x : Buf)
  | waiting (b : ℕ) (x : Buf) (asleep : Bool)

/-- In a call of `ide_rw(b)`. -/
def IdePc.In (b : ℕ) : IdePc → Prop
  | out => False
  | entering b' _ => b' = b
  | waiting b' _ _ => b' = b

/-- The buffers, `idequeue` with the `qnext` fields, the controller, the sectors, and the
threads. -/
structure Ide where
  buf : ℕ → Buf
  idequeue : Chain ℕ
  device : IdeDevice
  disk : Disk
  havedisk1 : Bool
  pc : ℕ → IdePc

/-- The test of the loop in `ide_rw` fails: `(flags & (B_VALID|B_DIRTY)) == B_VALID`. -/
def Buf.Synced (x : Buf) : Prop := x.valid = true ∧ x.dirty = false

instance (x : Buf) : Decidable x.Synced := by
  unfold Buf.Synced
  infer_instance

namespace Ide

/-- `ide_start`.  `ide_wait` spins as long as the disk is busy. -/
def ideStart (s : Ide) (b : ℕ) : Option Ide :=
  match s.device with
  | .busy _ => none
  | _ => some { s with device := .busy (s.buf b).cmd }

/-- `thread_wakeup(b)`, for the threads in `ide_rw`. -/
def threadWakeup (s : Ide) (b : ℕ) : Ide :=
  { s with pc := fun t =>
      match s.pc t with
      | .waiting b' x a => .waiting b' x (if b' = b then false else a)
      | p => p }

/-- `ide_intr`, when the disk has raised an interrupt. -/
def ideIntr (s : Ide) (data : Block) : Option Ide :=
  let s := { s with device := .ready }
  match s.idequeue.head with
  | none => some s
  | some b =>
    let s := { s with idequeue := { s.idequeue with head := s.idequeue.next b } }
    let x := s.buf b
    let x := if x.dirty = false then { x with data := data } else x
    let s := { s with buf := update s.buf b { x with valid := true, dirty := false } }
    let s := s.threadWakeup b
    match s.idequeue.head with
    | none => some s
    | some b => s.ideStart b

/-- The checks at the beginning of `ide_rw`. -/
def Callable (s : Ide) (b : ℕ) : Prop :=
  (s.buf b).busy = true ∧ ¬ (s.buf b).Synced ∧ ((s.buf b).dev = 0 ∨ s.havedisk1 = true)

/-- `ide_rw` from taking `ide_lk` to its first sleep, if the loop over the queue ends
within `n` rounds. -/
def ideRw (s : Ide) (n t b : ℕ) (x : Buf) : Option Ide :=
  let q := s.idequeue.setNext b none
  match q.last n none with
  | none => none
  | some pp =>
    let s := { s with
      idequeue := q.store pp b
      pc := update s.pc t (.waiting b x true) }
    if s.idequeue.head = some b then s.ideStart b else some s

/-- No call works on the buffer. -/
def Free (s : Ide) (b : ℕ) : Prop := ∀ t, ¬ (s.pc t).In b

/-- No call works on a buffer of the same sector, as the controller sees it. -/
def Apart (s : Ide) (b : ℕ) : Prop :=
  ∀ t b', (s.pc t).In b' → (s.buf b').addr ≠ (s.buf b).addr

variable {b b' t : ℕ} {s s₀ : Ide} {p : IdePc} {q : List ℕ} {a : Bool} {x : Buf} {es : List Event}
    {ok : Ide → ℕ → Prop}

theorem Apart.free (h : s.Apart b) : s.Free b := fun t ht => h t b ht rfl

/-- What a step does for the history of requests. -/
inductive Event where
  | silent
  | enqueue (b : ℕ)
  | complete (b : ℕ)
  | ret (t b : ℕ) (x : Buf)

/-- One step of a thread, of the interrupt handler, of the disk, or of the rest of the
kernel.  `ok` restricts the buffers `ide_rw` is called on. -/
inductive Step (ok : Ide → ℕ → Prop) : Ide → Event → Ide → Prop where
  | call {s : Ide} {t b : ℕ} (hpc : s.pc t = .out) (hok : ok s b) (hc : s.Callable b) :
      Step ok s .silent { s with pc := update s.pc t (.entering b (s.buf b)) }
  | request {s s' : Ide} {t b n : ℕ} {x : Buf} (hpc : s.pc t = .entering b x)
      (hs : s.ideRw n t b x = some s') : Step ok s (.enqueue b) s'
  | execute {s : Ide} {c : IdeCmd} (hd : s.device = .busy c) :
      Step ok s .silent { s with disk := c.disk s.disk, device := .raised c (c.data s.disk) }
  | intr {s s' : Ide} {c : IdeCmd} {data : Block} {b : ℕ} (hd : s.device = .raised c data)
      (hq : s.idequeue.head = some b) (hs : s.ideIntr data = some s') : Step ok s (.complete b) s'
  | spurious {s s' : Ide} {c : IdeCmd} {data : Block} (hd : s.device = .raised c data)
      (hq : s.idequeue.head = none) (hs : s.ideIntr data = some s') : Step ok s .silent s'
  | again {s : Ide} {t b : ℕ} {x : Buf} (hpc : s.pc t = .waiting b x false)
      (hb : ¬ (s.buf b).Synced) :
      Step ok s .silent { s with pc := update s.pc t (.waiting b x true) }
  | ret {s : Ide} {t b : ℕ} {x : Buf} (hpc : s.pc t = .waiting b x false)
      (hb : (s.buf b).Synced) :
      Step ok s (.ret t b x) { s with pc := update s.pc t .out }
  | wakeup {s : Ide} {b : ℕ} : Step ok s .silent (s.threadWakeup b)
  | touch {s : Ide} {b : ℕ} {x : Buf} (hf : s.Free b) :
      Step ok s .silent { s with buf := update s.buf b x }

/-- A run with its events. -/
inductive Run (ok : Ide → ℕ → Prop) (s₀ : Ide) : List Event → Ide → Prop where
  | refl : Run ok s₀ [] s₀
  | step {es : List Event} {s s' : Ide} {e : Event} (hr : Run ok s₀ es s) (hs : Step ok s e s') :
      Run ok s₀ (es ++ [e]) s'

/-- After `ide_init`: nothing queued, nobody in `ide_rw`. -/
def Fresh (s : Ide) : Prop :=
  s.idequeue.head = none ∧ s.device = .ready ∧ ∀ t, s.pc t = .out

def enqueued (es : List Event) : List ℕ :=
  es.filterMap fun | .enqueue b => some b | _ => none

def completed (es : List Event) : List ℕ :=
  es.filterMap fun | .complete b => some b | _ => none

/-! ### The invariant -/

/-- What a call knows about its buffer: unchanged until the request is done, and then
valid, clean, and with its old data if it was dirty. -/
def PcOk (buf : ℕ → Buf) (q : List ℕ) : IdePc → Prop
  | .out => True
  | .entering b x => b ∉ q ∧ buf b = x ∧ ¬ x.Synced
  | .waiting b x a =>
    (b ∈ q ∧ buf b = x ∧ ¬ x.Synced) ∨
    (b ∉ q ∧ a = false ∧ ∃ d, (x.dirty = true → d = x.data) ∧
      buf b = { x with valid := true, dirty := false, data := d })

/-- `q` is the queue: a command is in progress exactly if it is not empty, and then for its
head; every queued buffer has a thread waiting for it. -/
structure Inv (s : Ide) (q : List ℕ) : Prop where
  nodes : s.idequeue.Nodes q
  nodup : q.Nodup
  cmd : s.device.cmd = q.head?.map fun b => (s.buf b).cmd
  raised : ∀ c d, s.device = .raised c d → d = c.data s.disk ∧ c.disk s.disk = s.disk
  unique : ∀ t t' b, (s.pc t).In b → (s.pc t').In b → t = t'
  queued : ∀ b ∈ q, ∃ t x a, s.pc t = .waiting b x a
  threads : ∀ t, PcOk s.buf q (s.pc t)

/-- A call only knows about its own buffer. -/
theorem PcOk.frame {buf buf' : ℕ → Buf} {q' : List ℕ} (h : PcOk buf q p)
    (hb : ∀ b, p.In b → buf' b = buf b ∧ (b ∈ q' ↔ b ∈ q)) : PcOk buf' q' p := by
  cases p with
  | out => trivial
  | entering b | waiting b =>
    obtain ⟨he, hm⟩ := hb b rfl
    simp only [PcOk] at h ⊢
    rwa [he, hm]

theorem in_of_waiting (h : p = .waiting b x a) : p.In b := by
  rw [h]
  exact rfl

theorem in_of_entering (h : p = .entering b x) : p.In b := by
  rw [h]
  exact rfl

theorem in_threadWakeup : ((s.threadWakeup b).pc t).In b' ↔ (s.pc t).In b' := by
  unfold threadWakeup
  dsimp only
  cases s.pc t <;> exact Iff.rfl

theorem waiting_threadWakeup (h : s.pc t = .waiting b' x a) :
    (s.threadWakeup b).pc t = .waiting b' x (if b' = b then false else a) := by
  unfold threadWakeup
  dsimp only
  rw [h]

theorem waiting_of_threadWakeup
    (h : (s.threadWakeup b).pc t = .waiting b' x a) : ∃ a', s.pc t = .waiting b' x a' := by
  unfold threadWakeup at h
  dsimp only at h
  cases hp : s.pc t with
  | out | entering => simp [hp] at h
  | waiting b'' x'' a'' =>
    rw [hp] at h
    obtain ⟨rfl, rfl, -⟩ := IdePc.waiting.inj h
    exact ⟨a'', rfl⟩

theorem ideRw_frame {s' : Ide} {n : ℕ} (h : s.ideRw n t b x = some s') :
    s'.buf = s.buf ∧ s'.disk = s.disk ∧ s'.pc = update s.pc t (.waiting b x true) := by
  unfold ideRw at h
  dsimp only [ideStart] at h
  split at h
  · exact nomatch h
  split at h
  · split at h
    · exact nomatch h
    · obtain rfl := Option.some.inj h
      exact ⟨rfl, rfl, rfl⟩
  · obtain rfl := Option.some.inj h
    exact ⟨rfl, rfl, rfl⟩

/-- Waking a thread up is harmless. -/
theorem PcOk.threadWakeup {buf : ℕ → Buf}
    (h : PcOk buf q (s.pc t)) : PcOk buf q ((s.threadWakeup b).pc t) := by
  unfold Ide.threadWakeup
  dsimp only
  revert h
  cases s.pc t with
  | out | entering => exact id
  | waiting b' x a =>
    rintro (h | ⟨hq, ha, h⟩)
    · exact .inl h
    · exact .inr ⟨hq, by simp [ha], h⟩

namespace Inv

variable {s s' : Ide} {q : List ℕ} {t b : ℕ} {x : Buf}

theorem of_fresh (h : s.Fresh) : Inv s [] where
  nodes := h.1
  nodup := nodup_nil
  cmd := by rw [h.2.1]; rfl
  raised := by
    intro c d hd
    rw [h.2.1] at hd
    exact nomatch hd
  unique := by
    intro t t' b hb
    rw [h.2.2 t] at hb
    exact hb.elim
  queued := by simp
  threads := by
    intro t
    rw [h.2.2 t]
    trivial

theorem not_mem_of_free (h : Inv s q) (hf : s.Free b) : b ∉ q := by
  intro hm
  obtain ⟨t, x, a, ht⟩ := h.queued b hm
  exact hf t (in_of_waiting ht)

/-- The device is idle when nothing is queued. -/
theorem ready (h : Inv s []) : s.device = .ready := by
  have hc := h.cmd
  cases hd : s.device with
  | ready => rfl
  | busy | raised => simp [hd, IdeDevice.cmd] at hc

/-- **One thread moves**: its new place is fine, and it works on the same buffer, or on one
nobody works on, or on none. -/
theorem setPc (h : Inv s q) {p : IdePc} (hp : PcOk s.buf q p)
    (hin : ∀ b, p.In b → (s.pc t).In b ∨ s.Free b)
    (hq : ∀ b ∈ q, (s.pc t).In b → ∃ x a, p = .waiting b x a) :
    Inv { s with pc := update s.pc t p } q where
  nodes := h.nodes
  nodup := h.nodup
  cmd := h.cmd
  raised := h.raised
  unique := by
    intro t1 t2 b h1 h2
    simp only [update_apply] at h1 h2
    split at h1 <;> split at h2
    · simp_all
    · rename_i e1 e2
      rcases hin b h1 with hb | hb
      · exact absurd (h.unique _ _ _ h2 hb) e2
      · exact absurd h2 (hb t2)
    · rename_i e1 e2
      rcases hin b h2 with hb | hb
      · exact absurd (h.unique _ _ _ h1 hb) e1
      · exact absurd h1 (hb t1)
    · exact h.unique _ _ _ h1 h2
  queued := by
    intro b hb
    obtain ⟨t', x, a, ht'⟩ := h.queued b hb
    by_cases he : t' = t
    · subst he
      obtain ⟨x', a', hp'⟩ := hq b hb (in_of_waiting ht')
      exact ⟨t', x', a', by simp [hp']⟩
    · exact ⟨t', x, a, by simp [update_of_ne he, ht']⟩
  threads := by
    intro t'
    dsimp only
    rw [update_apply]
    split
    · exact hp
    · exact h.threads t'

theorem call (h : Inv s q) (hpc : s.pc t = .out) (hf : s.Free b) (hc : s.Callable b) :
    Inv { s with pc := update s.pc t (.entering b (s.buf b)) } q := by
  refine h.setPc ⟨h.not_mem_of_free hf, rfl, hc.2.1⟩ ?_ ?_
  · rintro b' rfl
    exact .inr hf
  · intro b' _ hb'
    rw [hpc] at hb'
    exact hb'.elim

variable {a : Bool}

theorem again (h : Inv s q) (hpc : s.pc t = .waiting b x a) (hb : ¬ (s.buf b).Synced) :
    Inv { s with pc := update s.pc t (.waiting b x true) } q := by
  have ht := h.threads t
  rw [hpc] at ht
  refine h.setPc ?_ ?_ ?_
  · rcases ht with ht | ⟨_, _, d, _, he⟩
    · exact .inl ht
    · exact absurd (by rw [he]; exact ⟨rfl, rfl⟩) hb
  · rintro b' rfl
    exact .inl (in_of_waiting hpc)
  · intro b' _ hb'
    rw [hpc] at hb'
    exact ⟨x, true, by rw [show b = b' from hb']⟩

/-- A thread leaves when its request is no longer queued. -/
theorem not_mem_of_synced (h : Inv s q) (hpc : s.pc t = .waiting b x a)
    (hb : (s.buf b).Synced) : b ∉ q := by
  have ht := h.threads t
  rw [hpc] at ht
  rcases ht with ⟨_, he, hx⟩ | ⟨hq, _⟩
  · exact absurd (he ▸ hb) hx
  · exact hq

theorem ret (h : Inv s q) (hpc : s.pc t = .waiting b x a) (hb : (s.buf b).Synced) :
    Inv { s with pc := update s.pc t .out } q := by
  refine h.setPc trivial (fun _ hb' => hb'.elim) ?_
  intro b' hb' hin
  rw [hpc] at hin
  obtain rfl : b = b' := hin
  exact absurd hb' (h.not_mem_of_synced hpc hb)

theorem wakeup (h : Inv s q) : Inv (s.threadWakeup b) q where
  nodes := h.nodes
  nodup := h.nodup
  cmd := h.cmd
  raised := h.raised
  unique := by
    intro t1 t2 b' h1 h2
    exact h.unique _ _ _ (in_threadWakeup.mp h1) (in_threadWakeup.mp h2)
  queued := by
    intro b' hb'
    obtain ⟨t, x, a, ht⟩ := h.queued b' hb'
    exact ⟨t, x, _, waiting_threadWakeup ht⟩
  threads := fun t => (h.threads t).threadWakeup

theorem touch (h : Inv s q) (hf : s.Free b) : Inv { s with buf := update s.buf b x } q where
  nodes := h.nodes
  nodup := h.nodup
  cmd := by
    refine h.cmd.trans ?_
    cases q with
    | nil => rfl
    | cons c q =>
      have hc : c ≠ b := fun he => h.not_mem_of_free hf (by simp [he])
      simp [update_of_ne hc]
  raised := h.raised
  unique := h.unique
  queued := h.queued
  threads := by
    intro t
    refine (h.threads t).frame fun b' hb' => ⟨?_, Iff.rfl⟩
    exact update_of_ne (fun he : b' = b => hf t (he ▸ hb')) _ _

theorem execute (h : Inv s q) {c : IdeCmd} (hd : s.device = .busy c) :
    Inv { s with disk := c.disk s.disk, device := .raised c (c.data s.disk) } q where
  nodes := h.nodes
  nodup := h.nodup
  cmd := by
    have hc := h.cmd
    rw [hd] at hc
    exact hc
  raised := by
    rintro c' d' hd'
    obtain ⟨rfl, rfl⟩ := IdeDevice.raised.inj hd'
    cases c <;> simp [IdeCmd.data, IdeCmd.disk]
  unique := h.unique
  queued := h.queued
  threads := h.threads

theorem request (h : Inv s q) {n : ℕ} (hpc : s.pc t = .entering b x)
    (hs : s.ideRw n t b x = some s') : Inv s' (q ++ [b]) := by
  have ht := h.threads t
  rw [hpc] at ht
  obtain ⟨hbq, hx, hsync⟩ := ht
  have hnodes := h.nodes.setNext hbq none
  unfold ideRw at hs
  dsimp only at hs
  split at hs
  · exact nomatch hs
  rename_i pp hpp
  have happ : ((s.idequeue.setNext b none).store pp b).Nodes (q ++ [b]) :=
    hnodes.append hbq (update_self ..) hpp
  -- the device works on the new buffer if it was idle, and goes on with the head otherwise
  obtain ⟨dev, rfl, hcmd, hraised⟩ : ∃ dev, s' = { s with
        idequeue := (s.idequeue.setNext b none).store pp b
        pc := update s.pc t (.waiting b x true)
        device := dev } ∧
      dev.cmd = (q ++ [b]).head?.map (fun b => (s.buf b).cmd) ∧
      ∀ c d, dev = .raised c d → d = c.data s.disk ∧ c.disk s.disk = s.disk := by
    rw [happ.head_eq] at hs
    cases q with
    | nil =>
      rw [nil_append, head?_cons, if_pos rfl, ideStart, h.ready] at hs
      obtain rfl := Option.some.inj hs
      exact ⟨_, rfl, rfl, by simp⟩
    | cons a l =>
      have hab : a ≠ b := fun he => hbq (by simp [he])
      rw [cons_append, head?_cons, if_neg (by simpa using hab)] at hs
      obtain rfl := Option.some.inj hs
      exact ⟨_, rfl, h.cmd, h.raised⟩
  have hother : ∀ t', t' ≠ t → ¬ (s.pc t').In b := by
    intro t' ht' hin
    exact ht' (h.unique _ _ _ hin (in_of_entering hpc))
  constructor
  · exact happ
  · simpa [nodup_append] using ⟨h.nodup, fun a ha he => hbq (he ▸ ha)⟩
  · exact hcmd
  · exact hraised
  · intro t1 t2 b' h1 h2
    simp only [update_apply] at h1 h2
    split at h1 <;> split at h2
    · simp_all
    · rename_i e1 e2
      obtain rfl : b = b' := h1
      exact absurd h2 (hother t2 e2)
    · rename_i e1 e2
      obtain rfl : b = b' := h2
      exact absurd h1 (hother t1 e1)
    · exact h.unique _ _ _ h1 h2
  · intro b' hb'
    rcases mem_append.mp hb' with hb' | hb'
    · obtain ⟨t', x', a', ht'⟩ := h.queued b' hb'
      have hne : t' ≠ t := by
        rintro rfl
        rw [hpc] at ht'
        exact nomatch ht'
      exact ⟨t', x', a', by simp [update_of_ne hne, ht']⟩
    · obtain rfl := mem_singleton.mp hb'
      exact ⟨t, x, true, by simp⟩
  · intro t'
    dsimp only
    rw [update_apply]
    split
    · exact .inl ⟨by simp, hx, hsync⟩
    · rename_i hne
      refine (h.threads t').frame fun b' hb' => ⟨rfl, ?_⟩
      have : b' ≠ b := fun he => hother t' hne (he ▸ hb')
      simp [this]

/-- The buffer after its command. -/
def done (x : Buf) (d : Block) : Buf :=
  { x with valid := true, dirty := false, data := if x.dirty = true then x.data else d }

theorem addr_done (x : Buf) (d : Block) : (done x d).addr = x.addr := by
  unfold Buf.addr
  rfl

theorem intr {l : List ℕ} (h : Inv s (b :: l)) {data : Block} (hs : s.ideIntr data = some s') :
    Inv s' l ∧ s'.disk = s.disk ∧ s'.buf = update s.buf b (done (s.buf b) data) ∧
      s'.pc = (s.threadWakeup b).pc := by
  have hbl : b ∉ l := (nodup_cons.mp h.nodup).1
  -- the next command is for the next buffer of the queue
  obtain ⟨dev, rfl, hcmd, hraised⟩ : ∃ dev, s' = { s.threadWakeup b with
        idequeue := { s.idequeue with head := s.idequeue.next b }
        buf := update s.buf b (done (s.buf b) data)
        device := dev } ∧
      dev.cmd = l.head?.map (fun b => (s.buf b).cmd) ∧ ∀ c d, dev ≠ .raised c d := by
    have hx : { (if (s.buf b).dirty = false then { s.buf b with data := data } else s.buf b) with
        valid := true, dirty := false } = done (s.buf b) data := by
      unfold done
      cases (s.buf b).dirty <;> rfl
    rw [ideIntr] at hs
    dsimp only at hs
    rw [h.nodes.head_eq, head?_cons] at hs
    dsimp only [threadWakeup] at hs
    rw [hx] at hs
    have hnext : s.idequeue.next b = l.head? := h.nodes.pop.head_eq
    rw [← hnext]
    split at hs
    · rename_i hn
      obtain rfl := Option.some.inj hs
      exact ⟨_, rfl, by rw [hn]; rfl, by simp⟩
    · rename_i a hn
      have ha : a ∈ l := mem_of_mem_head? (by rw [← hnext, hn]; rfl)
      have hab : a ≠ b := fun he => hbl (he ▸ ha)
      dsimp only [ideStart] at hs
      rw [update_of_ne hab] at hs
      obtain rfl := Option.some.inj hs
      exact ⟨_, rfl, by rw [hn]; rfl, by simp⟩
  refine ⟨?_, rfl, rfl, rfl⟩
  constructor
  · exact h.nodes.pop
  · exact (nodup_cons.mp h.nodup).2
  · refine hcmd.trans ?_
    cases l with
    | nil => rfl
    | cons a l =>
      have hab : a ≠ b := fun he => hbl (by simp [he])
      simp [update_of_ne hab]
  · exact fun c d he => absurd he (hraised c d)
  · exact h.wakeup.unique
  · exact fun b' hb' => h.wakeup.queued b' (by simp [hb'])
  · intro t
    by_cases ht : (s.pc t).In b
    · obtain ⟨t', x', a', ht'⟩ := h.queued b (by simp)
      obtain rfl := h.unique _ _ _ ht (in_of_waiting ht')
      have hok := h.threads t
      rw [ht'] at hok
      rcases hok with ⟨_, hx, _⟩ | ⟨hq, _⟩
      · change PcOk _ _ ((s.threadWakeup b).pc t)
        rw [waiting_threadWakeup ht', if_pos rfl]
        refine .inr ⟨hbl, rfl, if x'.dirty = true then x'.data else data, ?_, ?_⟩
        · exact fun hdirty => if_pos hdirty
        · simp [done, hx]
      · exact absurd (mem_cons_self ..) hq
    · refine ((h.threads t).frame fun b' hb' => ?_).threadWakeup
      have hne : b' ≠ b := fun he => ht (he ▸ hb')
      exact ⟨update_of_ne hne _ _, by simp [hne]⟩

theorem ideIntr_isSome (s : Ide) (data : Block) : ∃ s', s.ideIntr data = some s' := by
  unfold ideIntr
  dsimp only
  split
  · exact ⟨_, rfl⟩
  · split
    · exact ⟨_, rfl⟩
    · exact ⟨_, rfl⟩

/-- A thread with `ide_lk` gets through to its first sleep. -/
theorem request_exists (h : Inv s q) (hpc : s.pc t = .entering b x) :
    ∃ n s', s.ideRw n t b x = some s' := by
  have ht := h.threads t
  rw [hpc] at ht
  have hbq : b ∉ q := ht.1
  have hnodes := h.nodes.setNext hbq none
  obtain ⟨n, pp, hpp⟩ := hnodes.last_exists
  refine ⟨n, ?_⟩
  unfold ideRw
  dsimp only
  rw [hpp]
  dsimp only
  rw [(hnodes.append hbq (update_self ..) hpp).head_eq]
  split
  · rename_i hhead
    obtain rfl : q = [] := by
      cases q with
      | nil => rfl
      | cons a l => exact absurd (Option.some.inj hhead) fun he => hbq (by simp [← he])
    rw [ideStart, h.ready]
    exact ⟨_, rfl⟩
  · exact ⟨_, rfl⟩

/-- **Every step keeps the invariant**; the queue grows and shrinks as the event says. -/
theorem step {ok : Ide → ℕ → Prop} (hok : ∀ s b, ok s b → s.Free b) {e : Event} (h : Inv s q)
    (hs : Step ok s e s') : ∃ q', Inv s' q' ∧ q ++ enqueued [e] = completed [e] ++ q' := by
  cases hs with
  | call hpc hb hc => exact ⟨q, h.call hpc (hok _ _ hb) hc, by simp [enqueued, completed]⟩
  | request hpc hs => exact ⟨_, h.request hpc hs, by simp [enqueued, completed]⟩
  | execute hd => exact ⟨q, h.execute hd, by simp [enqueued, completed]⟩
  | intr hd hq hs =>
    rw [h.nodes.head_eq] at hq
    obtain ⟨l, rfl⟩ := head?_eq_some_iff.mp hq
    exact ⟨l, (h.intr hs).1, by simp [enqueued, completed]⟩
  | spurious hd hq _ =>
    -- a raised interrupt belongs to a command, and that to the head of the queue
    have hc := h.cmd
    rw [← h.nodes.head_eq, hq, hd] at hc
    exact nomatch hc
  | again hpc hb => exact ⟨q, h.again hpc hb, by simp [enqueued, completed]⟩
  | ret hpc hb => exact ⟨q, h.ret hpc hb, by simp [enqueued, completed]⟩
  | wakeup => exact ⟨q, h.wakeup, by simp [enqueued, completed]⟩
  | touch hf => exact ⟨q, h.touch hf, by simp [enqueued, completed]⟩

end Inv

theorem inv_of_run (hok : ∀ s b, ok s b → s.Free b) (h0 : s₀.Fresh) (hr : Run ok s₀ es s) :
    ∃ q, Inv s q ∧ enqueued es = completed es ++ q := by
  induction hr with
  | refl => exact ⟨[], Inv.of_fresh h0, rfl⟩
  | @step es s s' e _ hs ih =>
    obtain ⟨q, hinv, hq⟩ := ih
    obtain ⟨q', hinv', hq'⟩ := hinv.step hok hs
    refine ⟨q', hinv', ?_⟩
    calc enqueued (es ++ [e]) = enqueued es ++ enqueued [e] := filterMap_append
      _ = completed es ++ (completed [e] ++ q') := by rw [hq, append_assoc, hq']
      _ = completed (es ++ [e]) ++ q' := by
        rw [← append_assoc]
        exact congrArg (· ++ q') filterMap_append.symm

/-! ### Finishing the queue -/

theorem Run.trans {s1 s2 : Ide} {es' : List Event}
    (h : Run ok s₀ es s1) (h' : Run ok s1 es' s2) : Run ok s₀ (es ++ es') s2 := by
  induction h' with
  | refl => rwa [append_nil]
  | step _ hs ih =>
    rw [← append_assoc]
    exact ih.step hs

theorem Run.mono {ok' : Ide → ℕ → Prop} (hok : ∀ s b, ok s b → ok' s b)
    (h : Run ok s₀ es s) : Run ok' s₀ es s := by
  induction h with
  | refl => exact .refl
  | step _ hs ih =>
    refine ih.step ?_
    cases hs with
    | call hpc hb hc => exact .call hpc (hok _ _ hb) hc
    | request hpc hs => exact .request hpc hs
    | execute hd => exact .execute hd
    | intr hd hq hs => exact .intr hd hq hs
    | spurious hd hq hs => exact .spurious hd hq hs
    | again hpc hb => exact .again hpc hb
    | ret hpc hb => exact .ret hpc hb
    | wakeup => exact .wakeup
    | touch hf => exact .touch hf

/-- The head's request completes, by steps of the disk and the handler alone. -/
theorem Inv.complete {l : List ℕ} (h : Inv s (b :: l)) (ok : Ide → ℕ → Prop) :
    ∃ es s', Run ok s es s' ∧ Inv s' l ∧ enqueued es = [] ∧ completed es = [b] := by
  obtain ⟨es, s1, c, d, hr, h1, hd, he, hc⟩ : ∃ es s1 c d, Run ok s es s1 ∧ Inv s1 (b :: l) ∧
      s1.device = .raised c d ∧ enqueued es = [] ∧ completed es = [] := by
    cases hd : s.device with
    | ready =>
      have hc := h.cmd
      rw [hd] at hc
      exact nomatch hc
    | busy c => exact ⟨_, _, _, _, Run.refl.step (.execute hd), h.execute hd, rfl, rfl, rfl⟩
    | raised c d => exact ⟨_, s, c, d, .refl, h, hd, rfl, rfl⟩
  obtain ⟨s2, hs2⟩ := Inv.ideIntr_isSome s1 d
  refine ⟨_, s2, hr.step (.intr hd h1.nodes.head_eq hs2), (h1.intr hs2).1, ?_, ?_⟩
  · simpa [enqueued] using he
  · simpa [completed] using hc

theorem Inv.drain : ∀ {q : List ℕ} {s : Ide}, Inv s q →
    ∃ es s', Run ok s es s' ∧ enqueued es = [] ∧ completed es = q := by
  intro q
  induction q with
  | nil => exact fun {s} _ => ⟨[], s, .refl, rfl, rfl⟩
  | cons b l ih =>
    intro s h
    obtain ⟨es, s1, hr, h1, he, hc⟩ := h.complete ok
    obtain ⟨es', s2, hr', he', hc'⟩ := ih h1
    refine ⟨es ++ es', s2, hr.trans hr', ?_, ?_⟩
    · exact filterMap_append.trans (by rw [show filterMap _ es = [] from he]; exact he')
    · exact filterMap_append.trans
        (by rw [show filterMap _ es = [b] from hc, show filterMap _ es' = l from hc']; rfl)

/-! ### The sectors -/

/-- If the calls work on different sectors: a buffer whose request is done agrees with the
disk. -/
structure Settled (s : Ide) : Prop where
  apart : ∀ t t' b b', (s.pc t).In b → (s.pc t').In b' → b ≠ b' → (s.buf b).addr ≠ (s.buf b').addr
  agree : ∀ t b x a, s.pc t = .waiting b x a → (s.buf b).Synced →
    s.disk (s.buf b).addr = (s.buf b).data

namespace Settled

variable {s s' : Ide} {q : List ℕ} {t b : ℕ} {x : Buf}

theorem of_fresh (h : s.Fresh) : Settled s where
  apart := by
    intro t _ b _ hb
    rw [h.2.2 t] at hb
    exact hb.elim
  agree := by
    intro t b x a ht
    rw [h.2.2 t] at ht
    exact nomatch ht

/-- One thread moves, and if it waits then as before or for a request that is not done. -/
theorem setPc (h : Settled s) {p : IdePc} (hin : ∀ b, p.In b → (s.pc t).In b ∨ s.Apart b)
    (hw : ∀ b x a, p = .waiting b x a → ¬ (s.buf b).Synced) :
    Settled { s with pc := update s.pc t p } where
  apart := by
    intro t1 t2 b1 b2 h1 h2 hne
    simp only [update_apply] at h1 h2
    split at h1 <;> split at h2
    · rcases hin b1 h1 with hb | hb
      · rcases hin b2 h2 with hb' | hb'
        · exact h.apart _ _ _ _ hb hb' hne
        · exact hb' _ _ hb
      · rcases hin b2 h2 with hb' | hb'
        · exact (hb _ _ hb').symm
        · cases p with
          | out => exact h1.elim
          | entering b | waiting b => exact absurd ((show b = b1 from h1).symm.trans h2) hne
    · rcases hin b1 h1 with hb | hb
      · exact h.apart _ _ _ _ hb h2 hne
      · exact (hb _ _ h2).symm
    · rcases hin b2 h2 with hb | hb
      · exact h.apart _ _ _ _ h1 hb hne
      · exact hb _ _ h1
    · exact h.apart _ _ _ _ h1 h2 hne
  agree := by
    intro t' b x a ht' hb
    simp only [update_apply] at ht'
    split at ht'
    · exact absurd hb (hw b x a ht')
    · exact h.agree t' b x a ht' hb

/-- Neither buffers, nor sectors, nor who works on what change. -/
theorem congr (h : Settled s) (hbuf : s'.buf = s.buf) (hdisk : s'.disk = s.disk)
    (hin : ∀ t b, (s'.pc t).In b → (s.pc t).In b)
    (hw : ∀ t b x a, s'.pc t = .waiting b x a → ∃ a', s.pc t = .waiting b x a') : Settled s' where
  apart := by
    intro t t' b b' hb hb'
    rw [hbuf]
    exact h.apart t t' b b' (hin _ _ hb) (hin _ _ hb')
  agree := by
    intro t b x a ht
    obtain ⟨a', ht'⟩ := hw t b x a ht
    rw [hbuf, hdisk]
    exact h.agree t b x a' ht'

theorem call (h : Settled s) (hb : s.Apart b) :
    Settled { s with pc := update s.pc t (.entering b x) } := by
  refine h.setPc ?_ nofun
  rintro b' rfl
  exact .inr hb

theorem request (h : Settled s) (hi : Inv s q) {n : ℕ} (hpc : s.pc t = .entering b x)
    (hs : s.ideRw n t b x = some s') : Settled s' := by
  have ht := hi.threads t
  rw [hpc] at ht
  obtain ⟨-, hx, hsync⟩ := ht
  have hmove : Settled { s with pc := update s.pc t (.waiting b x true) } := by
    refine h.setPc ?_ ?_
    · rintro b' rfl
      exact .inl (in_of_entering hpc)
    · rintro b' x' a' he
      obtain ⟨rfl, -, -⟩ := IdePc.waiting.inj he
      rwa [hx]
  obtain ⟨hbuf, hdisk, hpc'⟩ := ideRw_frame hs
  refine hmove.congr hbuf hdisk ?_ ?_
  · intro t' b' hin
    rwa [hpc'] at hin
  · intro t' b' x' a' hw
    rw [hpc'] at hw
    exact ⟨a', hw⟩

theorem execute (h : Settled s) (hi : Inv s q) {c : IdeCmd} (hd : s.device = .busy c) :
    Settled { s with disk := c.disk s.disk, device := .raised c (c.data s.disk) } where
  apart := h.apart
  agree := by
    intro t b x a ht hb
    have hold := h.agree t b x a ht hb
    -- the command is the head's, whose request is not done
    have hc := hi.cmd
    rw [hd] at hc
    obtain ⟨b0, hb0, hcmd⟩ := Option.map_eq_some_iff.mp hc.symm
    have hmem : b0 ∈ q := mem_of_mem_head? hb0
    have hne : b ≠ b0 := fun he => hi.not_mem_of_synced ht hb (he ▸ hmem)
    obtain ⟨t0, x0, a0, ht0⟩ := hi.queued b0 hmem
    have haddr := h.apart t t0 b b0 (in_of_waiting ht) (in_of_waiting ht0) hne
    rw [← hcmd]
    unfold Buf.cmd
    split
    · exact (update_of_ne haddr _ _).trans hold
    · exact hold

theorem intr {l : List ℕ} (h : Settled s) (hi : Inv s (b :: l)) {c : IdeCmd} {data : Block}
    (hd : s.device = .raised c data) (hs : s.ideIntr data = some s') : Settled s' := by
  obtain ⟨-, hdisk, hbuf, hpc⟩ := hi.intr hs
  have haddr : ∀ b', (s'.buf b').addr = (s.buf b').addr := by
    intro b'
    rw [hbuf, update_apply]
    split
    · rename_i he
      rw [he, Inv.addr_done]
    · rfl
  constructor
  · intro t t' b1 b2 h1 h2
    rw [hpc] at h1 h2
    rw [haddr, haddr]
    exact h.apart _ _ _ _ (in_threadWakeup.mp h1) (in_threadWakeup.mp h2)
  · intro t b' x a ht hb'
    rw [hpc] at ht
    obtain ⟨a', ht'⟩ := waiting_of_threadWakeup ht
    rw [haddr, hdisk]
    by_cases he : b' = b
    · -- the command was the one of `b`, and the disk has executed it
      subst he
      have hc := hi.cmd
      rw [hd] at hc
      obtain rfl : c = (s.buf b').cmd := Option.some.inj hc
      obtain ⟨hdata, hsame⟩ := hi.raised _ _ hd
      rw [hbuf, update_self]
      unfold Inv.done
      dsimp only
      unfold Buf.cmd at hdata hsame
      split at hdata
      · rename_i hdirty
        rw [if_pos hdirty] at hsame ⊢
        rw [← hsame]
        exact update_self ..
      · rename_i hdirty
        rw [if_neg hdirty, hdata]
        rfl
    · rw [hbuf, update_of_ne he] at hb' ⊢
      exact h.agree t b' x a' ht' hb'

/-- **Every step keeps the sectors settled**, if `ide_rw` is called on buffers apart. -/
theorem step {e : Event} (h : Settled s) (hi : Inv s q) (hs : Step Apart s e s') : Settled s' := by
  cases hs with
  | call hpc hb hc => exact h.call hb
  | request hpc hs => exact h.request hi hpc hs
  | execute hd => exact h.execute hi hd
  | intr hd hq hs =>
    rw [hi.nodes.head_eq] at hq
    obtain ⟨l, rfl⟩ := head?_eq_some_iff.mp hq
    exact h.intr hi hd hs
  | spurious hd hq _ =>
    have hc := hi.cmd
    rw [← hi.nodes.head_eq, hq, hd] at hc
    exact nomatch hc
  | again hpc hb =>
    refine h.setPc ?_ ?_
    · rintro b' rfl
      exact .inl (in_of_waiting hpc)
    · rintro b' x' a' he
      obtain ⟨rfl, -, -⟩ := IdePc.waiting.inj he
      exact hb
  | ret hpc hb => exact h.setPc (fun _ hb' => hb'.elim) nofun
  | wakeup =>
    refine h.congr rfl rfl (fun t b hb => in_threadWakeup.mp hb) ?_
    intro t b x a ht
    exact waiting_of_threadWakeup ht
  | @touch b x hf =>
    have hne : ∀ t b', (s.pc t).In b' → update s.buf b x b' = s.buf b' := by
      intro t b' hb'
      exact update_of_ne (fun he : b' = b => hf t (he ▸ hb')) _ _
    constructor
    · intro t t' b1 b2 h1 h2
      dsimp only
      rw [hne t b1 h1, hne t' b2 h2]
      exact h.apart t t' b1 b2 h1 h2
    · intro t b1 y a ht
      dsimp only
      rw [hne t b1 (in_of_waiting ht)]
      exact h.agree t b1 y a ht

end Settled

/-! ### Whole runs -/

theorem settled_of_run (h0 : s₀.Fresh) (hr : Run Apart s₀ es s) : Settled s := by
  induction hr with
  | refl => exact Settled.of_fresh h0
  | step hr hs ih =>
    obtain ⟨q, hi, -⟩ := inv_of_run (fun _ _ h => h.free) h0 hr
    exact ih.step hi hs

/-- The buffer of a call whose loop ends. -/
theorem Inv.synced_eq (hi : Inv s q) (hpc : s.pc t = .waiting b x a) (hb : (s.buf b).Synced) :
    ∃ d, (x.dirty = true → d = x.data) ∧
      s.buf b = { x with valid := true, dirty := false, data := d } := by
  have hok := hi.threads t
  rw [hpc] at hok
  obtain ⟨-, -, hd⟩ := hok.resolve_left fun h => hi.not_mem_of_synced hpc hb h.1
  exact hd

/-- If the calls are on different sectors, that buffer is equal to its sector. -/
theorem returned (h0 : s₀.Fresh)
    (hr : Run Apart s₀ es s) (hpc : s.pc t = .waiting b x a) (hb : (s.buf b).Synced) :
    s.buf b = { x with valid := true, dirty := false, data := s.disk x.addr } ∧
      (x.dirty = true → s.disk x.addr = x.data) := by
  obtain ⟨q, hi, -⟩ := inv_of_run (fun _ _ h => h.free) h0 hr
  obtain ⟨d, hd, hbuf⟩ := hi.synced_eq hpc hb
  have haddr : (s.buf b).addr = x.addr := by
    rw [hbuf]
    unfold Buf.addr
    rfl
  have hagree := (settled_of_run h0 hr).agree t b x a hpc hb
  rw [haddr] at hagree
  have hdata : (s.buf b).data = d := by rw [hbuf]
  rw [hagree, hdata]
  exact ⟨hbuf, hd⟩

/-- What the driver guarantees for the queue `q` after the events `es`. -/
structure InOrder (es : List Event) (s : Ide) (q : List ℕ) : Prop where
  /-- `idequeue` leads through the buffers of `q`. -/
  nodes : s.idequeue.Nodes q
  /-- A command is in progress exactly if the queue is not empty, for its head. -/
  cmd : s.device.cmd = q.head?.map fun b => (s.buf b).cmd
  /-- The requests done so far are the first ones enqueued, and the queue is the rest. -/
  order : enqueued es = completed es ++ q
  /-- A thread sleeps only as long as its request is in the queue. -/
  asleep : ∀ t b x, s.pc t = .waiting b x true → b ∈ q
  /-- A thread with `ide_lk` can enqueue its buffer. -/
  enters : ∀ t b x, s.pc t = .entering b x → ∃ n s', s.ideRw n t b x = some s'
  /-- The disk and the handler alone complete what is in the queue, in order. -/
  drains : ∃ es' s', Run Free s es' s' ∧ enqueued es' = [] ∧ completed es' = q

/-- **The request queue.**  In every run of threads that call `ide_rw` on buffers of their
own, commands follow the queue and requests complete in order; a returning `ide_rw` leaves
the buffer valid and clean, with its data if it was dirty, and if the calls of the run are on
different sectors, equal to its sector. -/
theorem queue_of_run {s₀ s : Ide} {es : List Event} (h₀ : s₀.Fresh) (hr : Run Free s₀ es s) :
    ∃ q, InOrder es s q ∧
      ∀ t b x s', Step Free s (.ret t b x) s' → b ∉ q ∧
        (s'.buf b).valid = true ∧ (s'.buf b).dirty = false ∧
        (x.dirty = true → (s'.buf b).data = x.data) ∧
        (Run Apart s₀ es s → s'.disk x.addr = (s'.buf b).data) := by
  obtain ⟨q, hi, hq⟩ := inv_of_run (fun _ _ h => h) h₀ hr
  refine ⟨q, ⟨hi.nodes, hi.cmd, hq, ?_, fun t b x ht => hi.request_exists ht, hi.drain⟩, ?_⟩
  · intro t b x ht
    have hok := hi.threads t
    rw [ht] at hok
    rcases hok with ⟨hb, -⟩ | ⟨-, ha, -⟩
    · exact hb
    · exact nomatch ha
  · rintro t b x s' hs
    cases hs with
    | ret hpc hb =>
      obtain ⟨d, hd, hbuf⟩ := hi.synced_eq hpc hb
      refine ⟨hi.not_mem_of_synced hpc hb, hb.1, hb.2, ?_, ?_⟩
      · intro hdirty
        show (s.buf b).data = x.data
        rw [hbuf]
        exact hd hdirty
      · intro hr'
        show s.disk x.addr = (s.buf b).data
        rw [(returned h₀ hr' hpc hb).1]

/-- **The driver refines the one-step request of the buffer cache**: buffer and sector at the
return are those `Bcache.ideRw` computes from the buffer at the call. -/
theorem ret_refines_ideRw {s' : Ide}
    (h0 : s₀.Fresh) (hr : Run Apart s₀ es s) (hs : Step Apart s (.ret t b x) s')
    {c : Bcache} {d : Disk} {hd1 : Bool} (hc : c.buf b = x) (hbusy : x.busy = true)
    (hsync : ¬ x.Synced) (hdev : x.dev = 0 ∨ hd1 = true)
    (hd : x.dirty = false → d x.addr = s'.disk x.addr) :
    ∃ c' d', c.ideRw hd1 d b = some (c', d') ∧ c'.buf b = s'.buf b ∧
      d' x.addr = s'.disk x.addr := by
  obtain ⟨hbuf, hdirty⟩ : s'.buf b = { x with
        valid := true, dirty := false, data := s'.disk x.addr } ∧
      (x.dirty = true → s'.disk x.addr = x.data) := by
    cases hs with
    | ret hpc hb =>
      have h := returned h0 hr hpc hb
      exact h
  unfold Bcache.ideRw
  rw [hc]
  dsimp only
  unfold Buf.Synced at hsync
  rw [if_neg (by simp [hbusy]), if_neg hsync, if_neg (by rcases hdev with h | h <;> simp [h]), hbuf]
  have haddr : lba x.dev x.sector = x.addr := by
    unfold Buf.addr
    rfl
  rw [haddr]
  split
  · rename_i h
    refine ⟨_, _, rfl, ?_, ?_⟩
    · rw [Bcache.setBuf_self, hdirty h]
    · rw [update_self, hdirty h]
  · rename_i h
    have h' : x.dirty = false := by simpa using h
    refine ⟨_, _, rfl, ?_, hd h'⟩
    rw [Bcache.setBuf_self, hd h', ← h']

/-- Two dirty buffers for sectors 5 and 5 + 2²⁸, which the controller does not tell
apart. -/
def twoWrites : Ide where
  buf := fun b =>
    ⟨true, false, true, 0, if b = 0 then 5 else 5 + 2 ^ 28, Block.ofMem fun _ => if b = 0 then 0 else 1⟩
  idequeue := ⟨none, fun _ => none⟩
  device := .ready
  disk := fun _ => default
  havedisk1 := false
  pc := fun _ => .out

theorem twoWrites_fresh : twoWrites.Fresh := ⟨rfl, rfl, fun _ => rfl⟩

theorem twoWrites_addr : (twoWrites.buf 1).addr = (twoWrites.buf 0).addr := by
  unfold Buf.addr
  norm_num [twoWrites, lba]

/-- A thread alone writes its buffer. -/
theorem queue_of_write : ∃ es s s', Run Apart twoWrites es s ∧
    Step Free s (.ret 0 0 (twoWrites.buf 0)) s' ∧
    s'.disk (twoWrites.buf 0).addr = (twoWrites.buf 0).data := by
  obtain ⟨es, s, s', hr, hs⟩ : ∃ es s s', Run Apart twoWrites es s ∧
      Step Free s (.ret 0 0 (twoWrites.buf 0)) s' := by
    have h₁ : Run Apart twoWrites _ _ := Run.refl.step
      (.call (t := 0) (b := 0) rfl (fun _ _ h => h.elim) ⟨rfl, by decide, .inl rfl⟩)
    have h₂ := h₁.step (.request (t := 0) (n := 1) rfl rfl)
    have h₃ := h₂.step (.execute rfl)
    have h₄ := h₃.step (.intr rfl rfl rfl)
    exact ⟨_, _, _, h₄, .ret rfl (by decide)⟩
  obtain ⟨q, -, hret⟩ := queue_of_run twoWrites_fresh (hr.mono fun _ _ h => h.free)
  obtain ⟨-, -, -, hdata, hdisk⟩ := hret 0 0 _ _ hs
  exact ⟨es, s, s', hr, hs, (hdisk hr).trans (hdata rfl)⟩

/-- The first of two writes to one sector returns when the second is on the disk. -/
theorem two_writes_one_sector : ∃ es s s', twoWrites.Fresh ∧ Run Free twoWrites es s ∧
    Step Free s (.ret 0 0 (twoWrites.buf 0)) s' ∧ (twoWrites.buf 0).dirty = true ∧
    s'.disk (twoWrites.buf 0).addr ≠ (s'.buf 0).data := by
  have h₁ : Run Free twoWrites _ _ :=
    Run.refl.step (.call (t := 0) (b := 0) rfl (fun _ h => h) ⟨rfl, by decide, .inl rfl⟩)
  have h₂ := h₁.step (.call (t := 1) (b := 1) rfl (by
    intro t ht
    dsimp only at ht
    rw [update_apply] at ht
    split at ht
    · exact absurd (show 0 = 1 from ht) (by decide)
    · exact ht) ⟨rfl, by decide, .inl rfl⟩)
  have h₃ := h₂.step (.request (t := 0) (n := 1) rfl rfl)
  have h₄ := h₃.step (.request (t := 1) (n := 2) rfl rfl)
  have h₅ := h₄.step (.execute rfl)
  have h₆ := h₅.step (.intr rfl rfl rfl)
  have h₇ := h₆.step (.execute rfl)
  have h₈ := h₇.step (.intr rfl rfl rfl)
  refine ⟨_, _, _, twoWrites_fresh, h₈, .ret rfl (by decide), rfl, ?_⟩
  -- the second command wrote the same sector
  have hlast (d : Disk) : update d (twoWrites.buf 1).addr (twoWrites.buf 1).data
      (twoWrites.buf 0).addr = (twoWrites.buf 1).data := by
    rw [twoWrites_addr, update_self]
  intro he
  exact absurd (congrArg (fun d : Block => d.1 0) ((hlast _).symm.trans he)) (by decide)

end Ide

end Mcertikos
