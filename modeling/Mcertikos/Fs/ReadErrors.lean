/-
Device errors on read commands.

`ide_intr` reads the data register only if `ide_wait(1)` reports no error, but it
sets `B_VALID` in either case, and `ide_rw` returns as if the sector had been
read.  A buffer that was recycled for the sector then holds what it held before.

The runs here are those of any number of threads that call `bufcache_read` and
`bufcache_release`, section by section, with an arbitrary pattern of errors.
`failed` marks the buffers whose last read command reported one; the source keeps
no such mark.

* `ideRwErr_false` — without an error a request is the one of `Bcache.ideRw`;
* `ReadSt.Inv.exec` — a valid buffer whose last command did not fail agrees with the disk;
* `ReadSt.bufcacheRead_of_run` — so does every buffer that `bufcache_read` returns, unless its
  last command failed;
* `ReadSt.bufcacheRead_stale` — after a failed command the bytes of another sector are returned.
-/
import Mcertikos.Fs.Bufcache
import Mathlib.Logic.Relation

namespace Mcertikos

open List Relation Function Ring

/-- What `ide_intr` does to the buffer of the finished command: `err` is what the status register
says, `sector` what the data register holds. -/
def ideIntr (err : Bool) (sector : Block) (x : Buf) : Buf :=
  { x with
    data := if x.dirty = false ∧ err = false then sector else x.data
    valid := true
    dirty := false }

namespace Bcache

/-- A request of `ide_rw` whose command may report an error. -/
def ideRwErr (havedisk1 err : Bool) (c : Bcache) (disk : Disk) (b : ℕ) : Option (Bcache × Disk) :=
  let x := c.buf b
  if x.busy = false then none
  else if x.valid = true ∧ x.dirty = false then none
  else if x.dev ≠ 0 ∧ havedisk1 = false then none
  else
    some (c.setBuf b (ideIntr err (disk (lba x.dev x.sector)) x),
      if x.dirty = true then update disk (lba x.dev x.sector) x.data else disk)

theorem ideRwErr_false (havedisk1 : Bool) (c : Bcache) (disk : Disk) (b : ℕ) :
    ideRwErr havedisk1 false c disk b = ideRw havedisk1 c disk b := by
  unfold ideRwErr ideRw ideIntr
  cases hd : (c.buf b).dirty with
  | true | false => simp [hd]

/-- A request for a clean buffer is a read command. -/
theorem ideRwErr_of_clean {havedisk1 err : Bool} {c c' : Bcache} {disk disk' : Disk} {b : ℕ}
    (hd : (c.buf b).dirty = false) (h : ideRwErr havedisk1 err c disk b = some (c', disk')) :
    c' = c.setBuf b (ideIntr err (disk (lba (c.buf b).dev (c.buf b).sector)) (c.buf b)) ∧
      disk' = disk := by
  unfold ideRwErr at h
  dsimp only at h
  split_ifs at h with h1 h2 h3 h4
  · rw [hd] at h4
    exact absurd h4 Bool.false_ne_true
  · obtain ⟨rfl, rfl⟩ := Prod.mk.inj (Option.some.inj h)
    exact ⟨rfl, rfl⟩

end Bcache

/-- Who works on a buffer: nobody, a `bufcache_read` that has it from `bufcache_get`, or a caller
that it was returned to. -/
inductive BufUse where
  | free
  | reading (dev sector : ℕ)
  | held
  deriving DecidableEq

/-- The cache, the sectors, and for each buffer its use and whether its last command failed. -/
structure ReadSt where
  cache : Bcache
  disk : Disk
  use : ℕ → BufUse
  failed : ℕ → Bool

/-- The sections of `bufcache_read` and `bufcache_release`. -/
inductive ReadOp where
  | get (dev sector : ℕ)
  | intr (b : ℕ) (err : Bool)
  | ret (b : ℕ)
  | release (b : ℕ)

namespace ReadSt

open Bcache

def init (disk : Disk) : ReadSt := ⟨bufcacheInit, disk, fun _ => .free, fun _ => false⟩

/-- One section, `none` where the thread sleeps, panics or is somewhere else. -/
def exec (havedisk1 : Bool) (σ : ReadSt) : ReadOp → Option ReadSt
  | .get dev sector =>
    match σ.cache.bufcacheGet dev sector with
    | .take b c => some { σ with cache := c, use := update σ.use b (.reading dev sector) }
    | _ => none
  | .intr b err =>
    match σ.use b with
    | .reading _ _ =>
      if (σ.cache.buf b).valid = true then none
      else (ideRwErr havedisk1 err σ.cache σ.disk b).map fun r =>
        { σ with cache := r.1, disk := r.2, failed := update σ.failed b err }
    | _ => none
  | .ret b =>
    match σ.use b with
    | .reading _ _ =>
      if (σ.cache.buf b).valid = true then
        some { σ with use := update σ.use b .held }
      else none
    | _ => none
  | .release b =>
    if σ.use b = .held then
      some { σ with cache := σ.cache.bufcacheRelease b, use := update σ.use b .free }
    else none

def Step (havedisk1 : Bool) (σ σ' : ReadSt) : Prop := ∃ op, σ.exec havedisk1 op = some σ'

/-- `bufcache_read(dev, sector)` is about to return `b`. -/
def Returns (σ : ReadSt) (dev sector b : ℕ) : Prop :=
  σ.use b = .reading dev sector ∧ (σ.cache.buf b).valid = true

/-! ### The invariant -/

/-- What holds of a buffer between sections: a valid one agrees with the disk unless its last
command failed. -/
structure BufOk (disk : Disk) (x : Buf) (u : BufUse) (failed : Bool) : Prop where
  busy : u ≠ .free → x.busy = true
  clean : x.dirty = false
  key : ∀ dev sector, u = .reading dev sector → x.dev = dev ∧ x.sector = sector
  data : x.valid = true → failed = false → x.data = disk (lba x.dev x.sector)

structure Inv (disk : Disk) (σ : ReadSt) (l : List ℕ) : Prop where
  ring : IsRing σ.cache.links nbuf l
  length : l.length = nbuf
  same : σ.disk = disk
  member : ∀ b, σ.use b ≠ .free → b ∈ l
  each : ∀ b ∈ l, BufOk disk (σ.cache.buf b) (σ.use b) (σ.failed b)

variable {disk : Disk} {σ σ' : ReadSt} {l : List ℕ} {havedisk1 : Bool}

theorem inv_init (disk : Disk) : Inv disk (init disk) (range nbuf).reverse where
  ring := ring_bufcacheInit
  length := by rw [length_reverse, length_range]
  same := rfl
  member := fun _ h => absurd rfl h
  each := fun _ _ => ⟨fun h => absurd rfl h, rfl, nofun, nofun⟩

/-- Changing one buffer, its use and its mark. -/
theorem Inv.setBuf (h : Inv disk σ l) {b : ℕ} (hb : b ∈ l) {x : Buf} {u : BufUse}
    {f : ℕ → Bool} (hf : ∀ i, i ≠ b → f i = σ.failed i) (hx : BufOk disk x u (f b)) :
    Inv disk { σ with
      cache := σ.cache.setBuf b x, use := update σ.use b u, failed := f } l := by
  refine ⟨h.ring, h.length, h.same, fun i hu => ?_, fun i hi => ?_⟩
  · by_cases hib : i = b
    · exact hib ▸ hb
    · exact h.member i fun he => hu ((update_of_ne hib ..).trans he)
  · dsimp only
    by_cases hib : i = b
    · rw [hib, update_self, setBuf_self]
      exact hx
    · rw [update_of_ne hib, setBuf_other _ _ hib, hf i hib]
      exact h.each i hi

theorem Inv.get (h : Inv disk σ l) {dev sector : ℕ}
    (hx : σ.exec havedisk1 (.get dev sector) = some σ') : Inv disk σ' l := by
  dsimp only [exec] at hx
  rcases bufcacheGet_cases h.ring h.length dev sector with
    ⟨b, hb, hdev, hsec, ⟨-, he⟩ | ⟨-, he⟩⟩ | ⟨-, ⟨b, hb, -, -, he⟩ | ⟨-, he⟩⟩
  · -- the sector is cached
    rw [he] at hx
    obtain rfl := Option.some.inj hx
    exact h.setBuf hb (fun _ _ => rfl) ⟨fun _ => rfl, (h.each b hb).clean,
      fun _ _ hu => by cases hu; exact ⟨hdev, hsec⟩, (h.each b hb).data⟩
  · rw [he] at hx
    cases hx
  · -- a recycled buffer is not valid
    rw [he] at hx
    obtain rfl := Option.some.inj hx
    exact h.setBuf hb (fun _ _ => rfl) ⟨fun _ => rfl, rfl,
      fun _ _ hu => by cases hu; exact ⟨rfl, rfl⟩, nofun⟩
  · rw [he] at hx
    cases hx

theorem Inv.intr (h : Inv disk σ l) {b : ℕ} {err : Bool}
    (hx : σ.exec havedisk1 (.intr b err) = some σ') : Inv disk σ' l := by
  unfold exec at hx
  dsimp only at hx
  cases hu : σ.use b with
  | free | held => simp [hu] at hx
  | reading dev sector =>
    have hb : b ∈ l := h.member b (by rw [hu]; simp)
    have hold := h.each b hb
    rw [hu] at hx hold
    dsimp only at hx
    split_ifs at hx with hv
    obtain ⟨⟨c', disk'⟩, hr, rfl⟩ := Option.map_eq_some_iff.mp hx
    obtain ⟨rfl, rfl⟩ := ideRwErr_of_clean hold.clean hr
    have hsame : update σ.use b (.reading dev sector) = σ.use := by
      rw [← hu, update_eq_self]
    have hset := h.setBuf hb (f := update σ.failed b err) (u := .reading dev sector)
      (x := ideIntr err (σ.disk (lba (σ.cache.buf b).dev (σ.cache.buf b).sector)) (σ.cache.buf b))
      (fun i hi => update_of_ne hi _ _) ⟨hold.busy, rfl, hold.key, fun _ hf => ?_⟩
    · rw [hsame] at hset
      exact hset
    · -- the data register was read
      rw [update_self] at hf
      unfold ideIntr
      dsimp only
      rw [if_pos ⟨hold.clean, hf⟩, h.same]

theorem Inv.ret (h : Inv disk σ l) {b : ℕ} (hx : σ.exec havedisk1 (.ret b) = some σ') :
    Inv disk σ' l := by
  unfold exec at hx
  dsimp only at hx
  cases hu : σ.use b with
  | free | held => simp [hu] at hx
  | reading dev sector =>
    have hb : b ∈ l := h.member b (by rw [hu]; simp)
    have hold := h.each b hb
    rw [hu] at hx
    dsimp only at hx
    split_ifs at hx with hv
    obtain rfl := Option.some.inj hx
    have hset := h.setBuf hb (f := σ.failed) (u := .held) (x := σ.cache.buf b) (fun _ _ => rfl)
      ⟨fun _ => hold.busy (by rw [hu]; simp), hold.clean, nofun, hold.data⟩
    have hsame : σ.cache.setBuf b (σ.cache.buf b) = σ.cache := by
      unfold Bcache.setBuf
      rw [update_eq_self]
    rw [hsame] at hset
    exact hset

theorem Inv.release (h : Inv disk σ l) {b : ℕ} (hx : σ.exec havedisk1 (.release b) = some σ') :
    ∃ l', Inv disk σ' l' := by
  unfold exec at hx
  dsimp only at hx
  split_ifs at hx with hu
  obtain rfl := Option.some.inj hx
  have hb : b ∈ l := h.member b (by rw [hu]; simp)
  have hset := h.setBuf hb (f := σ.failed) (u := .free)
    (x := { σ.cache.buf b with busy := false }) (fun _ _ => rfl)
    ⟨fun he => absurd rfl he, (h.each b hb).clean, nofun, (h.each b hb).data⟩
  obtain ⟨l1, l2, rfl⟩ := append_of_mem hb
  have hmem : ∀ i, i ∈ b :: (l1 ++ l2) ↔ i ∈ l1 ++ b :: l2 := fun i =>
    (@perm_middle _ b l1 l2).symm.mem_iff
  exact ⟨b :: (l1 ++ l2), ring_bufcacheRelease h.ring,
    ((@perm_middle _ b l1 l2).symm.length_eq).trans h.length, hset.same,
    fun i hi => (hmem i).mpr (hset.member i hi), fun i hi => hset.each i ((hmem i).mp hi)⟩

theorem Inv.exec (h : Inv disk σ l) {op : ReadOp} (hx : σ.exec havedisk1 op = some σ') :
    ∃ l', Inv disk σ' l' := by
  cases op with
  | get dev sector => exact ⟨l, h.get hx⟩
  | intr b err => exact ⟨l, h.intr hx⟩
  | ret b => exact ⟨l, h.ret hx⟩
  | release b => exact h.release hx

theorem inv_of_run (hrun : ReflTransGen (Step havedisk1) (init disk) σ) : ∃ l, Inv disk σ l := by
  induction hrun with
  | refl => exact ⟨_, inv_init disk⟩
  | tail _ hstep ih =>
    obtain ⟨op, hop⟩ := hstep
    obtain ⟨l, hl⟩ := ih
    exact hl.exec hop

/-- A run of sections. -/
def run (havedisk1 : Bool) : List ReadOp → ReadSt → Option ReadSt
  | [], σ => some σ
  | op :: ops, σ => (σ.exec havedisk1 op).bind (run havedisk1 ops)

theorem reflTransGen_of_run : ∀ (ops : List ReadOp) {σ σ' : ReadSt},
    run havedisk1 ops σ = some σ' → ReflTransGen (Step havedisk1) σ σ' := by
  intro ops
  induction ops with
  | nil =>
    intro σ σ' h
    obtain rfl := Option.some.inj h
    exact .refl
  | cons op ops ih =>
    intro σ σ' h
    obtain ⟨σ1, h1, h2⟩ := Option.bind_eq_some_iff.mp h
    exact .head ⟨op, h1⟩ (ih h2)

/-- Sector `n` is filled with the byte `n + 1`. -/
def numberedDisk : Disk := fun n => Block.ofMem fun _ => UInt8.ofNat (n + 1)

/-- **A buffer that `bufcache_read` returns holds its sector, unless the command that last filled
it reported an error.** -/
theorem bufcacheRead_of_run (disk : Disk) (havedisk1 : Bool)
    (hrun : ReflTransGen (Step havedisk1) (init disk) σ) {dev sector b : ℕ}
    (hret : σ.Returns dev sector b) (hok : σ.failed b = false) :
    (σ.cache.buf b).data = disk (lba dev sector) := by
  obtain ⟨l, h⟩ := inv_of_run hrun
  obtain ⟨hu, hv⟩ := hret
  have hb := h.each b (h.member b (by rw [hu]; simp))
  obtain ⟨rfl, rfl⟩ := hb.key dev sector hu
  exact hb.data hv hok

theorem bufcacheRead_of_run_first :
    ∃ σ, ReflTransGen (Step false) (init numberedDisk) σ ∧ σ.Returns 0 3 0 ∧
      (σ.cache.buf 0).data = numberedDisk (lba 0 3) := by
  have hmap : (run false [.get 0 3, .intr 0 false] (init numberedDisk)).map (fun σ =>
      (decide (σ.use 0 = .reading 0 3), (σ.cache.buf 0).valid, σ.failed 0))
        = some (true, true, false) := by
    decide +kernel
  obtain ⟨σ, hrun, hσ⟩ := Option.map_eq_some_iff.mp hmap
  obtain ⟨huse, hrest⟩ := Prod.mk.inj hσ
  obtain ⟨hvalid, hfailed⟩ := Prod.mk.inj hrest
  have hret : σ.Returns 0 3 0 := ⟨of_decide_eq_true huse, hvalid⟩
  exact ⟨σ, reflTransGen_of_run _ hrun, hret,
    bufcacheRead_of_run numberedDisk false (reflTransGen_of_run _ hrun) hret hfailed⟩

/-! ### Stale bytes -/

/-- Ten sectors are read and held, the first one is released, and the command for an eleventh one
reports an error. -/
def staleRun : List ReadOp :=
  ((range 10).flatMap fun i => [.get 0 i, .intr i false, .ret i])
    ++ [.release 0, .get 0 10, .intr 0 true]

theorem run_staleRun : (run false staleRun (init numberedDisk)).map (fun σ =>
    (decide (σ.use 0 = .reading 0 10), (σ.cache.buf 0).valid, (σ.cache.buf 0).data.1 0))
      = some (true, true, 1) := by
  decide +kernel

/-- **Stale bytes are returned as valid**: `bufcache_read(0, 10)` returns a buffer with the bytes
of sector 0. -/
theorem bufcacheRead_stale :
    ∃ σ, ReflTransGen (Step false) (init numberedDisk) σ ∧ σ.Returns 0 10 0 ∧
      (σ.cache.buf 0).data.1 0 = (numberedDisk (lba 0 0)).1 0 ∧
      (σ.cache.buf 0).data ≠ numberedDisk (lba 0 10) := by
  obtain ⟨σ, hrun, hσ⟩ := Option.map_eq_some_iff.mp run_staleRun
  obtain ⟨huse, hrest⟩ := Prod.mk.inj hσ
  obtain ⟨hvalid, hbyte⟩ := Prod.mk.inj hrest
  refine ⟨σ, reflTransGen_of_run _ hrun, ⟨of_decide_eq_true huse, hvalid⟩, ?_, fun he => ?_⟩
  · rw [hbyte]
    decide +kernel
  · rw [he] at hbyte
    exact absurd hbyte (by decide +kernel)

end ReadSt

end Mcertikos
