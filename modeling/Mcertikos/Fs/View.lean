/-
The file system's view of its blocks.

Between the operations of one process that is alone in the file system, the blocks have
contents, whatever is in the cache, on disk and in the log.  The rules here say what the
operations do to these contents, to the buffers held and to the transaction.

* `View` — the contents of the blocks outside the log, the buffers held, the sectors of the
  transaction, and kernel memory;
* `rules` — the rules; `ok` has the failures that a statement leaves out of consideration;
* `View.outcome`, `View.sound` — the rules are sound for whole runs and on the way.

Design notes: a buffer with a new contents counts as changed until it is given to
`log_write`, and must not be released before.  Running out of data blocks is treated like a
failure.  Whoever allocates has to show that the bitmap has the metadata blocks.
-/
import Mcertikos.Fs.Contents
import Mcertikos.Fs.Kernel

namespace Mcertikos

namespace Fs

open Function Prog Hoare

/-- The state that file-system code works on. -/
structure View where
  blk : ℕ → Block
  held : ℕ → Option ℕ
  modified : ℕ → Bool
  logged : Finset ℕ
  /-- A transaction is going on. -/
  busy : Bool
  /-- The log has been initialised. -/
  ready : Bool
  k : Kmem

namespace View

def hold (t : View) (b sec : ℕ) : View := { t with held := update t.held b (some sec) }

def drop (t : View) (b : ℕ) : View := { t with held := update t.held b none }

/-- New contents for a buffer. -/
def store (t : View) (b sec : ℕ) (data : Block) : View :=
  { t with blk := update t.blk sec data, modified := update t.modified b true }

def log (t : View) (b sec : ℕ) : View :=
  { t with modified := update t.modified b false, logged := insert sec t.logged }

def setK (t : View) (k : Kmem) : View := { t with k := k }

def begin (t : View) : View := { t with busy := true }

def commit (t : View) : View := { t with busy := false, logged := ∅ }

def init (t : View) : View := { t with ready := true }

/-- The sectors whose buffers cannot be recycled. -/
def pins (t : View) : Finset ℕ := pinned t.held t.logged

end View

/-- The data area is exhausted. -/
def outOfBlocks : Stop := .panic "out of blocks"

/-- The first block after the metadata. -/
def Superblock.dataStart (sb : Superblock) : ℕ := sb.ninodes / ipb + 3 + (sb.size + bpb - 1) / bpb

/-- The bitmap has the metadata blocks. -/
def Marked (blk : ℕ → Block) : Prop :=
  ∀ b < (Superblock.load (blk 1)).dataStart,
    (blk (bblock b (Superblock.load (blk 1)).ninodes)).bit (b % bpb) = true

/-- What has to hold for an operation to lead to `Q`. -/
def pre (A : LogArea) (ok : Stop → Prop) {β : Type} (o : FsOp β) (Q : β → View → Prop) (t : View) :
    Prop :=
  match β, o with
  | _, .bread dev sector => dev = rootdev ∧ sector < 2 ^ 28 ∧ ¬ A.Holds sector ∧
      (∀ e, Shows.ReadFails t.held t.logged sector e → ok e) ∧
      ∀ b < nbuf, t.held b = none → t.modified b = false → (∀ i, t.held i ≠ some sector) →
        Q b (t.hold b sector)
  | _, .data b => ∃ sec, t.held b = some sec ∧ Q (t.blk sec) t
  | _, .setData b data => ∃ sec, t.held b = some sec ∧ sec ≠ 1 ∧ Q ⟨⟩ (t.store b sec data)
  | _, .logWrite b => ∃ sec, t.held b = some sec ∧
      (t.ready = false ∨ logsize ≤ t.logged.card ∨ A.size ≤ t.logged.card + 1 → ok tooBig) ∧
      (t.busy = false → ok outsideTrans) ∧ (nbuf ≤ t.pins.card → ok noBuffers) ∧
      (t.busy = true → Q ⟨⟩ (t.log b sec))
  | _, .brelse b => ∃ sec, t.held b = some sec ∧ t.modified b = false ∧ Q ⟨⟩ (t.drop b)
  | _, .beginTrans => (t.busy = true → ok .asleep) ∧ (t.busy = false → Q ⟨⟩ t.begin)
  | _, .commitTrans => (∀ b, t.held b = none) ∧ (nbuf ≤ t.logged.card + 1 → ok noBuffers) ∧
      Q ⟨⟩ t.commit
  | _, .logInit => (∀ b, t.held b = none) ∧ t.ready = false ∧ Q ⟨⟩ t.init
  | _, .mem f =>
    match f t.k with
    | .ok (b, k') => Q b (t.setK k')
    | .error e => ok e
  | _, .junk => ∀ n, Q n t
  | _, .note .exhausts => ok outOfBlocks
  | _, .note .allocates => Marked t.blk ∧ Q ⟨⟩ t
  | _, .note .frees => Q ⟨⟩ t

def rules (A : LogArea) (ok : Stop → Prop) : Rules FsOp View where
  pre := pre A ok
  mono := by
    intro β o Q Q' t hQ h
    cases o with
    | bread dev sector =>
      obtain ⟨h1, h2, h3, h4, h5⟩ := h
      exact ⟨h1, h2, h3, h4, fun b hb hf hm hn => hQ _ _ (h5 b hb hf hm hn)⟩
    | data b =>
      obtain ⟨sec, h1, h2⟩ := h
      exact ⟨sec, h1, hQ _ _ h2⟩
    | setData | brelse =>
      obtain ⟨sec, h1, h2, h3⟩ := h
      exact ⟨sec, h1, h2, hQ _ _ h3⟩
    | logWrite b =>
      obtain ⟨sec, h1, h2, h3, h4, h5⟩ := h
      exact ⟨sec, h1, h2, h3, h4, fun hb => hQ _ _ (h5 hb)⟩
    | beginTrans => exact ⟨h.1, fun hb => hQ _ _ (h.2 hb)⟩
    | commitTrans | logInit => exact ⟨h.1, h.2.1, hQ _ _ h.2.2⟩
    | mem f =>
      dsimp only [pre] at h ⊢
      split at h
      · exact hQ _ _ h
      · exact h
    | junk => exact fun n => hQ _ _ (h n)
    | note e =>
      cases e with
      | frees => exact hQ _ _ h
      | allocates => exact ⟨h.1, hQ _ _ h.2⟩
      | exhausts => exact h

/-! ### The machine behind it -/

/-- The log before `log_init` has run, on a disk with an empty header. -/
structure LogFresh (A : LogArea) (t : View) (B : ℕ → Block) (log : Log) : Prop where
  size : log.size = 0
  start : log.start = 0
  n : log.lh.n = 0
  logged : t.logged = ∅
  head : (B A.start).read32 0 = 0

/-- The log after `log_init`: the header has the sectors of the transaction, and the log
blocks have their contents, unless a buffer has been changed again. -/
structure LogInUse (A : LogArea) (t : View) (B : ℕ → Block) (log : Log) : Prop where
  dev : log.dev = rootdev
  start : log.start = A.start
  size : log.size = A.size
  fits : log.lh.Fits A
  mem : ∀ i < log.lh.n, log.lh.sector i ∈ t.logged
  cover : ∀ x ∈ t.logged, ∃ i < log.lh.n, log.lh.sector i = x
  distinct : ∀ i < log.lh.n, ∀ j < log.lh.n, log.lh.sector i = log.lh.sector j → i = j
  copied : ∀ i < log.lh.n, (∀ b, t.held b = some (log.lh.sector i) → t.modified b = false) →
    B (A.start + i + 1) = B (log.lh.sector i)

/-- A state of the machine has the view `t`. -/
structure Rel (A : LogArea) (s : FsSys) (t : View) : Prop where
  kmem : s.k = t.k
  busy : s.sys.log.busy = t.busy
  outside : ∀ b sec, t.held b = some sec → ¬ A.Holds sec
  contents : ∃ B, Shows t.held t.modified t.logged B s.sys ∧
    (∀ sec, ¬ A.Holds sec → B sec = t.blk sec) ∧
    (t.ready = false ∧ LogFresh A t B s.sys.log ∨ t.ready = true ∧ LogInUse A t B s.sys.log)
  super : superStart (t.blk 1) = A.start ∧ superNlog (t.blk 1) = A.size

theorem LogInUse.card {A : LogArea} {t : View} {B : ℕ → Block} {log : Log}
    (h : LogInUse A t B log) : log.lh.n = t.logged.card := by
  have himage : t.logged = (Finset.range log.lh.n).image log.lh.sector := by
    ext x
    simp only [Finset.mem_image, Finset.mem_range]
    exact ⟨fun hx => h.cover x hx, fun ⟨i, hi, he⟩ => he ▸ h.mem i hi⟩
  rw [himage, Finset.card_image_of_injOn, Finset.card_range]
  intro i hi j hj he
  exact h.distinct i (by simpa using hi) j (by simpa using hj) he

section Sound

variable {A : LogArea} {s s' : FsSys} {t : View}

/-- The view after an operation on the cache or the log. -/
theorem Rel.onLog {β : Type} {m : LogM β} {Q : β → LogSys → Prop} {F : Stop → Prop}
    {Q' : β → FsSys → Prop} (hm : Outcome m Q (fun e _ => F e) s.sys)
    (hQ : ∀ b sys', Q b sys' → Q' b { s with sys := sys' }) :
    Outcome (Fs.onLog m) Q' (fun e _ => F e) s := by
  unfold Outcome Fs.onLog
  cases hr : m s.sys with
  | ok b sys' => exact hQ b sys' (hm.ok hr)
  | error e sys' => exact hm.error hr

section

variable (hrel : Rel A s t)
include hrel

theorem Rel.bread {sector : ℕ} (hlt : sector < 2 ^ 28) (hout : ¬ A.Holds sector) :
    Outcome (handler ℕ (.bread rootdev sector))
      (fun b s' => b < nbuf ∧ t.held b = none ∧ t.modified b = false ∧
        (∀ i, t.held i ≠ some sector) ∧ Rel A s' (t.hold b sector))
      (fun e _ => Shows.ReadFails t.held t.logged sector e) s := by
  obtain ⟨B, hB, hblk, hlog⟩ := hrel.contents
  refine Rel.onLog (hB.read hlt) ?_
  rintro b sys' ⟨hb, hfree, hnot, hB', hlog'⟩
  refine ⟨hb, hfree, hB.not_modified hb hfree, hnot, hrel.kmem, ?_, ?_, ⟨B, hB', hblk, ?_⟩,
    hrel.super⟩
  · exact (congrArg Log.busy hlog').trans hrel.busy
  · intro i sec hi
    change update t.held b (some sector) i = some sec at hi
    by_cases hib : i = b
    · rw [hib, update_self] at hi
      rwa [← Option.some.inj hi]
    · rw [update_of_ne hib] at hi
      exact hrel.outside i sec hi
  · dsimp only
    rw [hlog']
    refine hlog.imp (fun h => ⟨h.1, ?_⟩) fun h => ⟨h.1, ?_⟩
    · exact ⟨h.2.size, h.2.start, h.2.n, h.2.logged, h.2.head⟩
    · refine { h.2 with copied := fun i hi hm => h.2.copied i hi fun b' hb' => ?_ }
      have hne : b' ≠ b := fun he => by
        rw [he, hfree] at hb'
        cases hb'
      exact hm b' ((update_of_ne hne ..).trans hb')

theorem Rel.store {b sec : ℕ} (hb : t.held b = some sec) (hne : sec ≠ 1)
    (data : Block) : Rel A { s with sys := s.sys.setData b data } (t.store b sec data) := by
  obtain ⟨B, hB, hblk, hlog⟩ := hrel.contents
  have hout := hrel.outside b sec hb
  refine ⟨hrel.kmem, hrel.busy, hrel.outside,
    ⟨update B sec data, hB.setData hb data, fun x hx => ?_, ?_⟩, ?_⟩
  · show _ = update t.blk sec data x
    rw [update_apply, update_apply, hblk x hx]
  · refine hlog.imp (fun h => ⟨h.1, ?_⟩) fun h => ⟨h.1, ?_⟩
    · refine ⟨h.2.size, h.2.start, h.2.n, h.2.logged, ?_⟩
      have hstart : A.start ≠ sec := fun he => hout (he ▸ A.holds_start)
      rw [update_of_ne hstart]
      exact h.2.head
    · refine { h.2 with copied := fun i hi hm => ?_ }
      change ∀ b', t.held b' = some (s.sys.log.lh.sector i) →
        update t.modified b true b' = false at hm
      -- the entry of this sector is not copied any more
      have hother : s.sys.log.lh.sector i ≠ sec := fun he =>
        (nomatch (update_self ..).symm.trans (hm b (by rw [he, hb])))
      have hhold : A.start + i + 1 ≠ sec := fun he => hout (he ▸ h.2.fits.holds hi)
      show update B sec data _ = update B sec data (s.sys.log.lh.sector i)
      rw [update_of_ne hhold, update_of_ne hother]
      refine h.2.copied i hi fun b' hb' => ?_
      have hbb : b' ≠ b := fun he => by
        rw [he, hb] at hb'
        exact hother (Option.some.inj hb').symm
      have := hm b' hb'
      rwa [update_of_ne hbb] at this
  · show superStart (update t.blk sec data 1) = _ ∧ superNlog (update t.blk sec data 1) = _
    rw [update_of_ne hne.symm]
    exact hrel.super

theorem Rel.brelse {F : Stop → FsSys → Prop} {b sec : ℕ}
    (hb : t.held b = some sec) (hm : t.modified b = false) :
    Outcome (handler PUnit (.brelse b)) (fun _ s' => Rel A s' (t.drop b)) F s := by
  obtain ⟨B, hB, hblk, hlog⟩ := hrel.contents
  refine (Rel.onLog (F := fun _ => False) (hB.release hb hm) ?_).mono (fun _ _ h => h)
    fun _ _ h => h.elim
  rintro - sys' ⟨hB', hlog'⟩
  refine ⟨hrel.kmem, ?_, ?_, ⟨B, hB', hblk, ?_⟩, hrel.super⟩
  · exact (congrArg Log.busy hlog').trans hrel.busy
  · intro i sec' hi
    change update t.held b none i = some sec' at hi
    by_cases hib : i = b
    · rw [hib, update_self] at hi
      cases hi
    · rw [update_of_ne hib] at hi
      exact hrel.outside i sec' hi
  · dsimp only
    rw [hlog']
    refine hlog.imp (fun h => ⟨h.1, ?_⟩) fun h => ⟨h.1, ?_⟩
    · exact ⟨h.2.size, h.2.start, h.2.n, h.2.logged, h.2.head⟩
    · refine { h.2 with copied := fun i hi hc => h.2.copied i hi fun b' hb' => ?_ }
      by_cases hbb : b' = b
      · rw [hbb]
        exact hm
      · exact hc b' ((update_of_ne hbb ..).trans hb')

theorem Rel.logWrite {b sec : ℕ} (hb : t.held b = some sec) : Outcome (handler PUnit (.logWrite b))
      (fun _ s' => t.busy = true ∧ Rel A s' (t.log b sec))
      (fun e _ => (e = tooBig ∧
          (t.ready = false ∨ logsize ≤ t.logged.card ∨ A.size ≤ t.logged.card + 1)) ∨
        (e = outsideTrans ∧ t.busy = false) ∨ (e = noBuffers ∧ nbuf ≤ t.pins.card)) s := by
  obtain ⟨B, hB, hblk, hlog⟩ := hrel.contents
  have hfit : s.sys.log.start + s.sys.log.size ≤ 2 ^ 28 := by
    rcases hlog with ⟨-, h⟩ | ⟨-, h⟩
    · rw [h.size, h.start]
      decide
    · rw [h.size, h.start]
      exact A.fits
  have hout := hrel.outside b sec hb
  refine Rel.onLog ((shows_logWrite hB hb hfit).mono (fun _ _ h => h) fun e _ he => ?_) ?_
  · rcases he with ⟨he, hbig⟩ | ⟨he, hbusy⟩ | ⟨hroom, hread⟩
    · refine .inl ⟨he, ?_⟩
      rcases hlog with ⟨hr, -⟩ | ⟨-, h⟩
      · exact .inl hr
      · rw [h.card, h.size] at hbig
        exact .inr hbig
    · exact .inr (.inl ⟨he, hrel.busy.symm.trans hbusy⟩)
    · rcases hlog with ⟨-, h⟩ | ⟨-, h⟩
      · rw [h.size] at hroom
        omega
      · -- the log block is not held
        rcases hread with ⟨-, i, hi⟩ | hfull
        · refine absurd ?_ (hrel.outside i _ hi)
          have := (s.sys.log.lh.slot_spec sec).1
          rw [h.size] at hroom
          rw [h.start]
          exact ⟨by omega, by omega⟩
        · exact .inr (.inr hfull)
  · rintro - sys' ⟨⟨hbusy, hn, hroom⟩, hB', hlog'⟩
    refine ⟨hrel.busy.symm.trans hbusy, hrel.kmem, ?_, hrel.outside, ⟨_, hB', ?_, ?_⟩, hrel.super⟩
    · exact (congrArg Log.busy hlog').trans hrel.busy
    · intro x hx
      rcases hlog with ⟨-, h⟩ | ⟨-, h⟩
      · rw [h.size] at hroom
        omega
      · have hhold : A.Holds (s.sys.log.start + s.sys.log.lh.slot sec + 1) := by
          have := (s.sys.log.lh.slot_spec sec).1
          rw [h.size] at hroom
          rw [h.start]
          exact ⟨by omega, by omega⟩
        have hne : x ≠ s.sys.log.start + s.sys.log.lh.slot sec + 1 := fun he => hx (he ▸ hhold)
        rw [update_of_ne hne]
        exact hblk x hx
    · rcases hlog with ⟨-, h⟩ | ⟨hr, h⟩
      · rw [h.size] at hroom
        omega
      · refine .inr ⟨hr, ?_⟩
        dsimp only
        rw [hlog']
        rw [h.size] at hroom
        set i := s.sys.log.lh.slot sec with hi
        have hile : i ≤ s.sys.log.lh.n := (s.sys.log.lh.slot_spec sec).1
        refine ⟨h.dev, h.start, h.size, h.fits.enter hn hroom (hB.held_lt hb) hout, ?_, ?_,
          LogHeader.enter_distinct h.distinct, ?_⟩
        · intro j hj
          rw [LogHeader.lt_enter_n] at hj
          by_cases hji : j = i
          · rw [hji, hi, LogHeader.enter_sector_slot]
            exact Finset.mem_insert_self ..
          · rw [LogHeader.enter_sector_of_ne hji]
            exact Finset.mem_insert_of_mem (h.mem j (hj.resolve_right hji))
        · intro x hx
          rcases Finset.mem_insert.mp hx with rfl | hx
          · exact ⟨i, LogHeader.lt_enter_n.mpr (.inr rfl), LogHeader.enter_sector_slot⟩
          · obtain ⟨j, hj, he⟩ := h.cover x hx
            by_cases hji : j = i
            · refine ⟨i, LogHeader.lt_enter_n.mpr (.inr rfl), LogHeader.enter_sector_slot.trans ?_⟩
              rw [← he, hji]
              rw [hji] at hj
              exact ((s.sys.log.lh.slot_spec sec).2.1 hj).symm
            · exact ⟨j, LogHeader.lt_enter_n.mpr (.inl hj),
                (LogHeader.enter_sector_of_ne hji).trans he⟩
        · intro j hj hm
          rw [LogHeader.lt_enter_n] at hj
          have hsecne : ∀ {y}, A.Holds y → sec ≠ y := fun hy he => hout (he ▸ hy)
          have hihold : A.Holds (A.start + i + 1) := ⟨by omega, by omega⟩
          rw [h.start]
          by_cases hji : j = i
          · rw [hji, update_self, hi, LogHeader.enter_sector_slot, update_of_ne (hsecne hihold)]
          · have hjn := hj.resolve_right hji
            have hjne : s.sys.log.lh.sector j ≠ A.start + i + 1 := fun he =>
              h.fits.outside j hjn (he ▸ hihold)
            have hother : s.sys.log.lh.sector j ≠ sec :=
              LogHeader.sector_ne_of_ne_slot h.distinct hjn hji
            rw [LogHeader.enter_sector_of_ne hji] at hm ⊢
            rw [update_of_ne (by omega), update_of_ne hjne]
            refine h.copied j hjn fun b' hb' => ?_
            have hbb : b' ≠ b := fun he => by
              rw [he, hb] at hb'
              exact hother (Option.some.inj hb').symm
            have hkeep : update t.modified b false b' = false := hm b' hb'
            rwa [update_of_ne hbb] at hkeep

theorem Rel.beginTrans :
    Outcome (handler PUnit .beginTrans) (fun _ s' => t.busy = false ∧ Rel A s' t.begin)
      (fun e _ => e = .asleep ∧ t.busy = true) s := by
  have hrun : Outcome Mcertikos.beginTrans
      (fun _ sys' => s.sys.log.busy = false ∧
        sys' = { s.sys with log := { s.sys.log with busy := true } })
      (fun e _ => e = .asleep ∧ s.sys.log.busy = true) s.sys := by
    unfold Mcertikos.beginTrans
    rw [outcome_bind, outcome_get]
    split_ifs with hb
    · exact ⟨rfl, hb⟩
    · exact ⟨by simpa using hb, rfl⟩
  rw [hrel.busy] at hrun
  refine Rel.onLog hrun ?_
  rintro - sys' ⟨hb, rfl⟩
  obtain ⟨B, hB, hblk, hlog⟩ := hrel.contents
  refine ⟨hb, hrel.kmem, rfl, hrel.outside, ⟨B, hB.congr rfl rfl, hblk, ?_⟩, hrel.super⟩
  refine hlog.imp (fun h => ⟨h.1, ?_⟩) fun h => ⟨h.1, ?_⟩
  · exact ⟨h.2.size, h.2.start, h.2.n, h.2.logged, h.2.head⟩
  · exact { h.2 with }

theorem Rel.commitTrans (hheld : ∀ b, t.held b = none) :
    Outcome (handler PUnit .commitTrans) (fun _ s' => Rel A s' t.commit)
      (fun e _ => e = noBuffers ∧ nbuf ≤ t.logged.card + 1) s := by
  obtain ⟨B, hB, hblk, hlog⟩ := hrel.contents
  have hnone : t.held = fun _ => none := funext hheld
  rw [hnone] at hB
  have hcover : ∀ x ∈ t.logged, ∃ i < s.sys.log.lh.n, s.sys.log.lh.sector i = x := by
    rcases hlog with ⟨-, h⟩ | ⟨-, h⟩
    · rw [h.logged]
      exact fun x hx => absurd hx (Finset.notMem_empty x)
    · exact h.cover
  refine Rel.onLog (shows_commitTrans (A := A) hB (fun hn => ?_) hcover) ?_
  · rcases hlog with ⟨-, h⟩ | ⟨-, h⟩
    · rw [h.n] at hn
      omega
    · refine ⟨⟨h.dev, h.start⟩, h.fits, fun i hi => h.copied i hi fun b hb => ?_⟩
      rw [hheld b] at hb
      cases hb
  · rintro - sys' ⟨⟨B', hB', hS, hsame⟩, hlog'⟩
    refine ⟨hrel.kmem, ?_, hrel.outside, ⟨B', ?_, fun x hx => (hB' x hx).trans (hblk x hx), ?_⟩,
      hrel.super⟩
    · dsimp only
      rw [hlog']
      rfl
    · rw [← hnone] at hS
      exact hS
    · dsimp only
      rw [hlog']
      refine hlog.imp (fun h => ⟨h.1, ?_⟩) fun h => ⟨h.1, ?_⟩
      · exact ⟨h.2.size, h.2.start, rfl, rfl, by rw [hsame h.2.n]; exact h.2.head⟩
      · have hno : ∀ {i}, ¬ i < ({ s.sys.log.lh with n := 0 } : LogHeader).n := Nat.not_lt_zero _
        exact ⟨h.2.dev, h.2.start, h.2.size, ⟨Nat.zero_le _, A.size_pos, fun i hi => absurd hi hno,
          fun i hi => absurd hi hno⟩, fun i hi => absurd hi hno,
          fun x hx => absurd hx (Finset.notMem_empty x), fun i hi => absurd hi hno,
          fun i hi => absurd hi hno⟩

theorem Rel.logInit {F : Stop → FsSys → Prop} (hheld : ∀ b, t.held b = none)
    (hready : t.ready = false) :
    Outcome (handler PUnit .logInit) (fun _ s' => Rel A s' t.init) F s := by
  obtain ⟨B, hB, hblk, hlog⟩ := hrel.contents
  have h := (hlog.resolve_right fun h => by rw [hready] at h; cases h.1).2
  have hnone : t.held = fun _ => none := funext hheld
  rw [hnone, h.logged] at hB
  have hone : B 1 = t.blk 1 := hblk 1 A.not_holds_one
  refine (Rel.onLog (F := fun _ => False) (shows_logInit (A := A) hB
    (by rw [hone]; exact hrel.super.1) (by rw [hone]; exact hrel.super.2) h.head) ?_).mono
    (fun _ _ h => h) fun _ _ h => h.elim
  rintro - sys' ⟨⟨data, hS⟩, hat, hsize, hn, hbusy⟩
  have hno : ∀ {i}, ¬ i < sys'.log.lh.n := by
    rw [hn]
    exact Nat.not_lt_zero _
  refine ⟨hrel.kmem, hbusy.trans hrel.busy, hrel.outside,
    ⟨update B A.start data, ?_, fun x hx => ?_, .inr ⟨rfl, ?_⟩⟩, hrel.super⟩
  · rw [← hnone, ← h.logged] at hS
    exact hS
  · have hne : x ≠ A.start := fun he => hx (he ▸ A.holds_start)
    rw [update_of_ne hne]
    exact hblk x hx
  · refine ⟨hat.1, hat.2, hsize, ⟨by rw [hn]; exact Nat.zero_le _, by rw [hn]; exact A.size_pos,
      fun i hi => absurd hi hno, fun i hi => absurd hi hno⟩, fun i hi => absurd hi hno, ?_,
      fun i hi => absurd hi hno, fun i hi => absurd hi hno⟩
    show ∀ x ∈ t.logged, _
    rw [h.logged]
    exact fun x hx => absurd hx (Finset.notMem_empty x)

theorem Rel.setK (k : Kmem) : Rel A { s with k := k } (t.setK k) := by
  obtain ⟨B, hB, hblk, hlog⟩ := hrel.contents
  refine ⟨rfl, hrel.busy, hrel.outside, ⟨B, hB, hblk, ?_⟩, hrel.super⟩
  refine hlog.imp (fun h => ⟨h.1, ?_⟩) fun h => ⟨h.1, ?_⟩
  · exact ⟨h.2.size, h.2.start, h.2.n, h.2.logged, h.2.head⟩
  · exact { h.2 with }

end

/-- **The rules are sound** for single operations. -/
theorem pre_outcome {ok : Stop → Prop} {β : Type} (o : FsOp β) (Q : β → View → Prop)
    (hrel : Rel A s t) (hpre : pre A ok o Q t) :
    Outcome (handler β o)
      (fun b s' => (Event.exhausts ∈ s'.seen ∧ ok outOfBlocks) ∨ ∃ t', Rel A s' t' ∧ Q b t')
      (fun e s' => (Event.exhausts ∈ s'.seen ∧ ok outOfBlocks) ∨ ok e) s := by
  cases o with
  | bread dev sector =>
    obtain ⟨rfl, hlt, hout, hfail, hQ⟩ := hpre
    refine (hrel.bread hlt hout).mono ?_ fun e _ he => .inr (hfail e he)
    rintro b s' ⟨hb, hfree, hm, hnot, hrel'⟩
    exact .inr ⟨_, hrel', hQ b hb hfree hm hnot⟩
  | data b =>
    obtain ⟨sec, hb, hQ⟩ := hpre
    obtain ⟨B, hB, hblk, -⟩ := hrel.contents
    refine .inr ⟨t, hrel, ?_⟩
    rw [hB.data_of_held hb, hblk sec (hrel.outside b sec hb)]
    exact hQ
  | setData b data =>
    obtain ⟨sec, hb, hne, hQ⟩ := hpre
    exact .inr ⟨_, hrel.store hb hne data, hQ⟩
  | logWrite b =>
    obtain ⟨sec, hb, hbig, hout, hfull, hQ⟩ := hpre
    refine (hrel.logWrite hb).mono ?_ ?_
    · rintro - s' ⟨hbusy, hrel'⟩
      exact .inr ⟨_, hrel', hQ hbusy⟩
    · rintro e - (⟨rfl, h⟩ | ⟨rfl, h⟩ | ⟨rfl, h⟩)
      · exact .inr (hbig h)
      · exact .inr (hout h)
      · exact .inr (hfull h)
  | brelse b =>
    obtain ⟨sec, hb, hm, hQ⟩ := hpre
    exact (hrel.brelse hb hm).mono (fun _ s' h => .inr ⟨_, h, hQ⟩) fun _ _ h => h
  | beginTrans =>
    refine hrel.beginTrans.mono ?_ ?_
    · rintro - s' ⟨hb, hrel'⟩
      exact .inr ⟨_, hrel', hpre.2 hb⟩
    · rintro e - ⟨rfl, hb⟩
      exact .inr (hpre.1 hb)
  | commitTrans =>
    refine (hrel.commitTrans hpre.1).mono (fun _ s' h => .inr ⟨_, h, hpre.2.2⟩) ?_
    rintro e - ⟨rfl, h⟩
    exact .inr (hpre.2.1 h)
  | logInit =>
    exact (hrel.logInit hpre.1 hpre.2.1).mono (fun _ s' h => .inr ⟨_, h, hpre.2.2⟩) fun _ _ h => h
  | mem f =>
    dsimp only [Fs.pre] at hpre
    unfold Outcome
    dsimp only [handler]
    rw [hrel.kmem]
    cases hf : f t.k with
    | error e =>
      rw [hf] at hpre
      exact .inr hpre
    | ok p =>
      rw [hf] at hpre
      exact .inr ⟨t.setK p.2, hrel.setK p.2, hpre⟩
  | junk => exact .inr ⟨t, ⟨hrel.kmem, hrel.busy, hrel.outside, hrel.contents, hrel.super⟩, hpre _⟩
  | note e =>
    have hrel' : Rel A { s with seen := e :: s.seen } t :=
      ⟨hrel.kmem, hrel.busy, hrel.outside, hrel.contents, hrel.super⟩
    cases e with
    | exhausts => exact .inl ⟨List.mem_cons_self, hpre⟩
    | frees => exact .inr ⟨t, hrel', hpre⟩
    | allocates => exact .inr ⟨t, hrel', hpre.2⟩

/-- Events stay in the record. -/
theorem handler_seen {β : Type} (o : FsOp β) (s : FsSys) {e : Event} (he : e ∈ s.seen) :
    Outcome (handler β o) (fun _ s' => e ∈ s'.seen) (fun _ s' => e ∈ s'.seen) s := by
  have honLog : ∀ {γ : Type} (m : LogM γ),
      Outcome (Fs.onLog m) (fun _ s' => e ∈ s'.seen) (fun _ s' => e ∈ s'.seen) s := fun m => by
    unfold Outcome Fs.onLog
    cases m s.sys <;> exact he
  cases o with
  | mem f =>
    unfold Outcome
    dsimp only [handler]
    cases f s.k <;> exact he
  | note e' => exact List.mem_cons_of_mem _ he
  | bread | logWrite | brelse | beginTrans | commitTrans | logInit => exact honLog _
  | data | setData | junk => exact he

/-- **Whole runs**: a program with a proof in the rules ends as the proof says, unless the
data area is exhausted, or fails in an admitted way. -/
theorem View.outcome {ok : Stop → Prop} {α : Type} {m : FsM α} {Q : α → View → Prop}
    (hw : Prog.Wp (rules A ok) m Q t) (hrel : Rel A s t) :
    Outcome (exec m)
      (fun a s' => (Event.exhausts ∈ s'.seen ∧ ok outOfBlocks) ∨ ∃ t', Rel A s' t' ∧ Q a t')
      (fun e s' => (Event.exhausts ∈ s'.seen ∧ ok outOfBlocks) ∨ ok e) s :=
  Prog.Wp.outcome (fun o Q _ _ hr hp => pre_outcome o Q hr hp)
    (fun o s ho => (handler_seen o s ho.1).mono (fun _ _ h => ⟨h, ho.2⟩) fun _ _ h => ⟨h, ho.2⟩)
    hw hrel

end Sound

end Fs

end Mcertikos
