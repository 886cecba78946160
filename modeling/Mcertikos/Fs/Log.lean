/-
The log (`fs/log.c`) on top of the buffer cache.

The functions are those of the source, for a thread that runs alone on the cache.
`past` keeps the contents of the disk before every request, so that the disks a
crash can leave behind are the current one and those in `past`.

* `wp_bufcacheRead`, `wp_bufcacheWrite`, `wp_bufcacheRelease` — the cache functions;
* `slot_spec` — the entry of the header that `log_write` uses;
* `read32_headBlock_n`, `read32_headBlock_sector` — what `write_head` writes.

Design notes: a thread stops at a panic, and also when it would sleep, since nobody
is there to wake it.  `log.size` and the sizes in the superblock are those of a real
image, so that `int` and `uint32_t` agree.
-/
import Mcertikos.Fs.Bufcache
import Mcertikos.Lib.Hoare

namespace Mcertikos

open Bcache Hoare

/-! ### The log header -/

/-- `LOGSIZE`. -/
def logsize : ℕ := 10

/-- `ROOTDEV`. -/
def rootdev : ℕ := 1

/-- `struct logheader`. -/
structure LogHeader where
  n : ℕ
  sector : ℕ → ℕ

/-- `struct log`. -/
structure Log where
  start : ℕ
  size : ℕ
  busy : Bool
  dev : ℕ
  lh : LogHeader

namespace LogHeader

/-- The absorption loop of `log_write` from entry `i` on, `k` entries left. -/
def slotFrom (lh : LogHeader) (sector : ℕ) : ℕ → ℕ → ℕ
  | 0, i => i
  | k + 1, i => if lh.sector i = sector then i else slotFrom lh sector k (i + 1)

/-- The entry `log_write` uses for a sector: its own if it has one, or the next
free one. -/
def slot (lh : LogHeader) (sector : ℕ) : ℕ := lh.slotFrom sector lh.n 0

def setSector (lh : LogHeader) (i sector : ℕ) : LogHeader :=
  { lh with sector := Function.update lh.sector i sector }

theorem slotFrom_spec (lh : LogHeader) (sector k i : ℕ) :
    i ≤ lh.slotFrom sector k i ∧ lh.slotFrom sector k i ≤ i + k ∧
      (lh.slotFrom sector k i < i + k → lh.sector (lh.slotFrom sector k i) = sector) ∧
      ∀ j, i ≤ j → j < lh.slotFrom sector k i → lh.sector j ≠ sector := by
  induction k generalizing i with
  | zero => exact ⟨le_refl i, le_refl i, fun h => absurd h (lt_irrefl i), fun j h1 h2 => by
      simp only [slotFrom] at h2
      omega⟩
  | succ k ih =>
    unfold slotFrom
    by_cases hs : lh.sector i = sector
    · rw [if_pos hs]
      exact ⟨le_refl i, by omega, fun _ => hs, fun j h1 h2 => by omega⟩
    · rw [if_neg hs]
      obtain ⟨h1, h2, h3, h4⟩ := ih (i + 1)
      refine ⟨by omega, by omega, fun h => h3 (by omega), fun j hj hlt => ?_⟩
      rcases Nat.eq_or_lt_of_le hj with rfl | hj
      · exact hs
      · exact h4 j hj hlt

/-- The entry is one of the transaction's with this sector, or the first free one
when no entry has it. -/
theorem slot_spec (lh : LogHeader) (sector : ℕ) :
    lh.slot sector ≤ lh.n ∧ (lh.slot sector < lh.n → lh.sector (lh.slot sector) = sector) ∧
      ∀ j < lh.slot sector, lh.sector j ≠ sector := by
  obtain ⟨-, h2, h3, h4⟩ := lh.slotFrom_spec sector lh.n 0
  rw [Nat.zero_add] at h2 h3
  exact ⟨h2, h3, fun j hj => h4 j (Nat.zero_le j) hj⟩

/-- The header block: `n` and the first `n` sector numbers, over what was there. -/
def headBlock (lh : LogHeader) (data : Block) : Block :=
  Memory.loop (fun i blk => blk.write32 (4 + 4 * i) (lh.sector i)) lh.n (data.write32 0 lh.n)

theorem read32_headBlock {lh : LogHeader} {data : Block} {a : ℕ}
    (ha : ∀ i < lh.n, a + 4 ≤ 4 + 4 * i ∨ 4 + 4 * i + 4 ≤ a) :
    (lh.headBlock data).read32 a = (data.write32 0 lh.n).read32 a := by
  refine Memory.loop_induct (fun _ (blk : Block) => blk.read32 a = (data.write32 0 lh.n).read32 a)
    rfl lh.n ?_
  intro i hi blk hblk
  rw [Block.read32_write32_of_disjoint (by have := ha i hi; omega), hblk]

theorem read32_headBlock_n {lh : LogHeader} {data : Block} (hn : lh.n < 2 ^ 32) :
    (lh.headBlock data).read32 0 = lh.n := by
  rw [read32_headBlock fun i _ => .inl (by omega)]
  exact Block.read32_write32_same hn (by decide)

theorem read32_headBlock_sector {lh : LogHeader} {data : Block} (hn : lh.n ≤ logsize)
    (hs : ∀ i < lh.n, lh.sector i < 2 ^ 32) {i : ℕ} (hi : i < lh.n) :
    (lh.headBlock data).read32 (4 + 4 * i) = lh.sector i := by
  -- after round `k` the entries below `k` are in place
  refine Memory.loop_induct (fun k (blk : Block) => i < k → blk.read32 (4 + 4 * i) = lh.sector i)
    nofun lh.n ?_ hi
  intro k hk blk hblk hik
  rcases Nat.lt_succ_iff_lt_or_eq.mp hik with hlt | rfl
  · rw [Block.read32_write32_of_disjoint (by omega), hblk hlt]
  · unfold logsize at hn
    exact Block.read32_write32_same (hs i hi) (by unfold bsize; omega)

end LogHeader

/-! ### Programs on the cache -/

/-- Why a thread does not go on. -/
inductive Stop where
  | panic (msg : String)
  | asleep
  | diverge

/-- The cache, the disk and the log, with the earlier contents of the disk. -/
structure LogSys where
  c : Bcache
  disk : Disk
  log : Log
  past : List Disk

abbrev LogM := EStateM Stop LogSys

namespace LogSys

def setBuf (s : LogSys) (b : ℕ) (x : Buf) : LogSys := { s with c := s.c.setBuf b x }

def setData (s : LogSys) (b : ℕ) (data : Block) : LogSys :=
  s.setBuf b { s.c.buf b with data := data }

def setDirty (s : LogSys) (b : ℕ) : LogSys := s.setBuf b { s.c.buf b with dirty := true }

def setHeader (s : LogSys) (lh : LogHeader) : LogSys := { s with log := { s.log with lh := lh } }

/-- A disk that a crash can leave behind. -/
def Crash (s : LogSys) (d : Disk) : Prop := d = s.disk ∨ d ∈ s.past

end LogSys

section Functions

variable (havedisk1 : Bool)

/-- `ide_rw`. -/
def ideRequest (b : ℕ) : LogM PUnit := fun s =>
  match ideRw havedisk1 s.c s.disk b with
  | some (c', disk') => .ok ⟨⟩ { s with c := c', disk := disk', past := s.disk :: s.past }
  | none => .error (.panic "ide_rw") s

def bufcacheRead (dev sector : ℕ) : LogM ℕ := do
  let s ← get
  match s.c.bufcacheGet dev sector with
  | .take b c' => do
    modify fun s => { s with c := c' }
    if (c'.buf b).valid = false then ideRequest havedisk1 b
    pure b
  | .sleep _ => throw .asleep
  | .noBuffers => throw (.panic "bufcache_get: no buffers")
  | .diverge => throw .diverge

def bufcacheWrite (b : ℕ) : LogM PUnit := do
  let s ← get
  if (s.c.buf b).busy = false then throw (.panic "bwrite")
  else do
    modify fun s => s.setDirty b
    ideRequest havedisk1 b

def bufcacheRelease (b : ℕ) : LogM PUnit := do
  let s ← get
  if (s.c.buf b).busy = false then throw (.panic "brelse")
  else modify fun s => { s with c := s.c.bufcacheRelease b }

/-- Copy committed blocks from the log to their home sectors. -/
def installTrans : LogM PUnit := do
  let s ← get
  forRange 0 (fun tail => do
    let lbuf ← bufcacheRead havedisk1 s.log.dev (s.log.start + tail + 1)
    let dbuf ← bufcacheRead havedisk1 s.log.dev (s.log.lh.sector tail)
    modify fun s => s.setData dbuf (s.c.buf lbuf).data
    bufcacheWrite havedisk1 dbuf
    bufcacheRelease lbuf
    bufcacheRelease dbuf) s.log.lh.n

/-- The in-memory header gets the count and the first entries of the one on disk;
a count with the top bit set is negative, and the loop does not run. -/
def LogHeader.load (lh : LogHeader) (data : Block) : LogHeader where
  n := if data.read32 0 < 2 ^ 31 then data.read32 0 else 0
  sector := fun i => if i < data.read32 0 ∧ data.read32 0 < 2 ^ 31 then data.read32 (4 + 4 * i)
    else lh.sector i

def readHead : LogM PUnit := do
  let s ← get
  let buf ← bufcacheRead havedisk1 s.log.dev s.log.start
  modify fun s => s.setHeader (s.log.lh.load (s.c.buf buf).data)
  bufcacheRelease buf

def writeHead : LogM PUnit := do
  let s ← get
  let buf ← bufcacheRead havedisk1 s.log.dev s.log.start
  modify fun s => s.setData buf (s.log.lh.headBlock (s.c.buf buf).data)
  bufcacheWrite havedisk1 buf
  bufcacheRelease buf

/-- The three last steps of `commit_trans` and of `recover_from_log`. -/
def installAndErase : LogM PUnit := do
  installTrans havedisk1
  modify fun s => s.setHeader { s.log.lh with n := 0 }
  writeHead havedisk1

def recoverFromLog : LogM PUnit := do
  readHead havedisk1
  installAndErase havedisk1

/-- `log.start` and `log.size`, from the superblock. -/
def superStart (sb : Block) : ℕ := (sb.read32 0 + 2 ^ 32 - sb.read32 12) % 2 ^ 32

def superNlog (sb : Block) : ℕ := sb.read32 12

def logInit : LogM PUnit := do
  let bp ← bufcacheRead havedisk1 rootdev 1
  let s ← get
  bufcacheRelease bp
  modify fun s' => { s' with log := { s'.log with
    start := superStart (s.c.buf bp).data
    size := superNlog (s.c.buf bp).data
    dev := rootdev } }
  recoverFromLog havedisk1

def beginTrans : LogM PUnit := do
  let s ← get
  if s.log.busy = true then throw .asleep
  else modify fun s => { s with log := { s.log with busy := true } }

def commitTrans : LogM PUnit := do
  let s ← get
  if 0 < s.log.lh.n then do
    writeHead havedisk1
    installAndErase havedisk1
  modify fun s => { s with log := { s.log with busy := false } }

def logWrite (b : ℕ) : LogM PUnit := do
  let s ← get
  let i := s.log.lh.slot (s.c.buf b).sector
  if logsize ≤ s.log.lh.n ∨ s.log.size ≤ s.log.lh.n + 1 then
    throw (.panic "too big a transaction")
  else if s.log.busy = false then throw (.panic "write outside of trans")
  else do
    modify fun s => s.setHeader (s.log.lh.setSector i (s.c.buf b).sector)
    let lbuf ← bufcacheRead havedisk1 (s.c.buf b).dev (s.log.start + i + 1)
    modify fun s => s.setData lbuf (s.c.buf b).data
    bufcacheWrite havedisk1 lbuf
    bufcacheRelease lbuf
    modify fun s => s.setHeader { s.log.lh with n := if i = s.log.lh.n then i + 1 else s.log.lh.n }
    modify fun s => s.setDirty b

end Functions

/-! ### The cache functions -/

section Rules

variable {havedisk1 : Bool} {s : LogSys} {m : ℕ → Bool} {l : List ℕ}

/-- What `bufcache_read` does to the system: buffer `b`, which was free, is now `x`. -/
structure ReadBuf (s s' : LogSys) (m : ℕ → Bool) (l : List ℕ) (dev sector b : ℕ) (x : Buf) :
    Prop where
  mem : b ∈ l
  free : (s.c.buf b).busy = false
  cache : s'.c = s.c.setBuf b x
  inv : CacheInv s'.c s'.disk m l
  busy : x.busy = true
  valid : x.valid = true
  dev_eq : x.dev = dev
  sector_eq : x.sector = sector
  dirty_eq : x.dirty = (s.c.buf b).dirty
  kept : x.dirty = true → x = { s.c.buf b with busy := true }
  disk_eq : s'.disk = s.disk
  log_eq : s'.log = s.log
  crash : ∀ d, s'.Crash d → s.Crash d

/-- `bufcache_read` cannot go on: there is no such drive, or the sector's buffer is busy, or no
buffer can be recycled. -/
inductive ReadStuck (havedisk1 : Bool) (s : LogSys) (l : List ℕ) (dev sector : ℕ) : Stop → Prop
  | noDrive {e : Stop} (h : havedisk1 = false) : ReadStuck havedisk1 s l dev sector e
  | busy {b : ℕ} (hb : b ∈ l) (hd : (s.c.buf b).dev = dev) (hs : (s.c.buf b).sector = sector)
      (h : (s.c.buf b).busy = true) : ReadStuck havedisk1 s l dev sector .asleep
  | full (h : ∀ b ∈ l, (s.c.buf b).busy = true ∨ (s.c.buf b).dirty = true) :
      ReadStuck havedisk1 s l dev sector (.panic "bufcache_get: no buffers")

theorem ReadBuf.buf (h : ReadBuf s s' m l dev sector b x) : s'.c.buf b = x := by
  rw [h.cache, setBuf_self]

/-- A dirty buffer had the sector already. -/
theorem ReadBuf.dirty (h : ReadBuf s s' m l dev sector b x) (hd : x.dirty = true) :
    (s.c.buf b).dirty = true ∧ (s.c.buf b).dev = dev ∧ (s.c.buf b).sector = sector := by
  have hx := h.kept hd
  exact ⟨h.dirty_eq.symm.trans hd, by rw [← h.dev_eq, hx], by rw [← h.sector_eq, hx]⟩

/-- A clean buffer has the contents of the disk. -/
theorem ReadBuf.data (h : ReadBuf s s' m l dev sector b x) (hd : x.dirty = false)
    (hm : m b = false) : x.data = s.disk (lba dev sector) := by
  have := h.inv.clean b h.mem (by rw [h.buf, h.valid]) (by rw [h.buf, hd]) hm
  rwa [h.buf, h.dev_eq, h.sector_eq, h.disk_eq] at this

/-- The second half of `bufcache_read`, with the buffer already taken. -/
theorem outcome_fill (s1 : LogSys) {dev sector b : ℕ} (x : Buf) (hb : b ∈ l)
    (hfree : (s.c.buf b).busy = false) (hm : m b = false) (hc : s1.c = s.c.setBuf b x)
    (hinv : CacheInv s1.c s1.disk m l) (hon : OnDrive dev sector) (hbusy : x.busy = true)
    (hdev : x.dev = dev) (hsec : x.sector = sector)
    (hdirty : x.dirty = (s.c.buf b).dirty)
    (hkept : x.dirty = true → x = { s.c.buf b with busy := true })
    (hdisk : s1.disk = s.disk) (hlog : s1.log = s.log) (hpast : s1.past = s.past) :
    Outcome (do if x.valid = false then ideRequest havedisk1 b
                pure b)
      (fun b s' => ∃ x, ReadBuf s s' m l dev sector b x)
      (fun _ s' => havedisk1 = false ∧ ∀ d, s'.Crash d → s.Crash d) s1 := by
  have hbuf : s1.c.buf b = x := by rw [hc, setBuf_self]
  have hcrash : ∀ d, s1.Crash d → s.Crash d := fun d hd => by
    unfold LogSys.Crash at hd ⊢
    rwa [hdisk, hpast] at hd
  have hused : (s1.c.buf b).dev ≠ noDev := by
    rw [hbuf, hdev]
    exact hon.used
  cases hv : x.valid with
  | true =>
    exact ⟨x, hb, hfree, hc, hinv, hbusy, hv, hdev, hsec, hdirty, hkept, hdisk, hlog, hcrash⟩
  | false =>
    have hclean : x.dirty = false := hbuf ▸ hinv.clean_of_invalid hb (hbuf ▸ hv)
    rw [if_pos rfl, outcome_bind]
    unfold Outcome ideRequest
    cases hide : ideRw havedisk1 s1.c s1.disk b with
    | none => exact ⟨ideRw_of_fail (by rw [hbuf, hbusy]) (by rw [hbuf, hv]; simp) hide, hcrash⟩
    | some p =>
      obtain ⟨c', disk'⟩ := p
      obtain ⟨rfl, rfl⟩ := ideRw_of_clean (by rw [hbuf, hclean]) hide
      refine ⟨{ x with valid := true, data := s1.disk (lba x.dev x.sector) }, hb, hfree, ?_, ?_,
        hbusy, rfl, hdev, hsec, hdirty, (nomatch hclean.symm.trans ·), hdisk, hlog, ?_⟩
      · rw [hbuf, hc, setBuf_setBuf]
      · exact hinv.setBuf hb hused rfl rfl (fun _ _ => rfl) (fun _ _ => rfl)
          (fun ht => by rw [hm] at ht; cases ht) (fun _ => rfl) (fun _ _ _ => rfl)
      · intro d hd
        refine hcrash d ?_
        rcases hd with rfl | hd
        · exact .inl rfl
        · exact (List.mem_cons.mp hd).imp_right id

/-- A read returns a busy, valid buffer of the sector, and no disk content is new. -/
theorem outcome_bufcacheRead (h : CacheInv s.c s.disk m l) {dev sector : ℕ}
    (hon : OnDrive dev sector) :
    Outcome (bufcacheRead havedisk1 dev sector) (fun b s' => ∃ x, ReadBuf s s' m l dev sector b x)
      (fun e s' => ReadStuck havedisk1 s l dev sector e ∧ ∀ d, s'.Crash d → s.Crash d) s := by
  unfold bufcacheRead
  rw [outcome_bind, outcome_get]
  rcases bufcacheGet_cases h.ring h.length_eq dev sector with
    ⟨b, hb, hd, hs, ⟨hfree, he⟩ | ⟨hbusy, he⟩⟩ | ⟨hnew, ⟨b, hb, hfree, hclean, he⟩ | ⟨hall, he⟩⟩
  · rw [he]
    dsimp only
    rw [outcome_bind, outcome_modify, setBuf_self]
    refine (outcome_fill { s with c := s.c.setBuf b { s.c.buf b with busy := true } }
      { s.c.buf b with busy := true } hb hfree (h.unmodified hb hfree) rfl ?_ hon rfl hd hs
      rfl (fun _ => rfl) rfl rfl rfl).mono (fun _ _ h => h) fun _ _ h => ⟨.noDrive h.1, h.2⟩
    exact h.setBuf hb (by rw [hd]; exact hon.used) rfl rfl (fun _ _ => rfl) (fun _ _ => rfl)
      (fun _ => rfl) (h.dirty_valid b hb) (h.clean b hb)
  · rw [he]
    exact ⟨.busy hb hd hs hbusy, fun _ h => h⟩
  · rw [he]
    dsimp only
    rw [outcome_bind, outcome_modify, setBuf_self]
    exact (outcome_fill { s with c := s.c.setBuf b ⟨true, false, false, dev, sector, (s.c.buf b).data⟩ }
      ⟨true, false, false, dev, sector, (s.c.buf b).data⟩ hb hfree (h.unmodified hb hfree) rfl
      (h.recycle hon hnew) hon rfl rfl rfl hclean.symm nofun rfl rfl rfl).mono (fun _ _ h => h)
      fun _ _ h => ⟨.noDrive h.1, h.2⟩
  · rw [he]
    exact ⟨.full hall, fun _ h => h⟩

/-- A write of a busy buffer is one disk write. -/
theorem wp_bufcacheWrite {b : ℕ} {Q : PUnit → LogSys → Prop} {E : LogSys → Prop}
    (hbusy : (s.c.buf b).busy = true)
    (hQ : Q ⟨⟩ { s with
      c := s.c.setBuf b { s.c.buf b with valid := true, dirty := false }
      disk := Function.update s.disk (lba (s.c.buf b).dev (s.c.buf b).sector) (s.c.buf b).data
      past := s.disk :: s.past })
    (hE : ∀ s', havedisk1 = false → (∀ d, s'.Crash d → s.Crash d) → E s') :
    Wp (bufcacheWrite havedisk1 b) Q E s := by
  unfold bufcacheWrite
  rw [wp_bind, wp_get, if_neg (by rw [hbusy]; simp), wp_bind, wp_modify]
  have hbuf : (s.setDirty b).c.buf b = { s.c.buf b with dirty := true } := setBuf_self _ _ _
  unfold Wp ideRequest
  cases hide : ideRw havedisk1 (s.setDirty b).c (s.setDirty b).disk b with
  | none =>
    exact hE _ (ideRw_of_fail (by rw [hbuf]; exact hbusy) (by rw [hbuf]; simp) hide) fun _ h => h
  | some p =>
    obtain ⟨c', disk'⟩ := p
    obtain ⟨rfl, rfl⟩ := ideRw_of_dirty (by rw [hbuf]) hide
    rw [hbuf]
    dsimp only
    have hc : (s.setDirty b).c.setBuf b { s.c.buf b with valid := true, dirty := false }
        = s.c.setBuf b { s.c.buf b with valid := true, dirty := false } := setBuf_setBuf _ _ _ _
    rw [hc]
    exact hQ

theorem wp_bufcacheRelease {b : ℕ} {Q : PUnit → LogSys → Prop} {E : LogSys → Prop}
    (hbusy : (s.c.buf b).busy = true) (hQ : Q ⟨⟩ { s with c := s.c.bufcacheRelease b }) :
    Wp (bufcacheRelease b) Q E s := by
  unfold bufcacheRelease
  rw [wp_bind, wp_get, if_neg (by rw [hbusy]; simp), wp_modify]
  exact hQ

end Rules

end Mcertikos
