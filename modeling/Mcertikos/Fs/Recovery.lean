/-
Crash recovery of the log.

A transaction is `begin_trans`, any use of the cache in which every changed buffer
is given to `log_write`, and `commit_trans`.  The machine may stop at any moment;
`log_init` then runs on an empty cache, and may be stopped as well, any number of
times.

* `Idle`, `Committed` — the disks without and with a committed transaction;
* `wp_installAndErase` — every disk on the way from `Committed` to `Idle` is one of
  the two;
* `log_crash_atomic` — after a recovery, all of the transaction is there, or none.
-/
import Mcertikos.Fs.Log

namespace Mcertikos

open List Relation Function Bcache Hoare

/-! ### The log on disk -/

/-- The sectors of the log: the header and the log blocks.  The superblock is not
one of them. -/
structure LogArea where
  start : ℕ
  size : ℕ
  size_pos : 0 < size
  fits : start + size ≤ 2 ^ 28
  super_outside : start + size ≤ 1 ∨ 1 < start

/-- A sector of the root drive. -/
def Disk.sec (d : Disk) (sector : ℕ) : Block := d (lba rootdev sector)

namespace LogArea

variable (A : LogArea)

def Holds (sector : ℕ) : Prop := A.start ≤ sector ∧ sector < A.start + A.size

/-- An address of the log area. -/
def Addr (a : ℕ) : Prop := ∃ sector, A.Holds sector ∧ a = lba rootdev sector

/-- The superblock points at the log area. -/
def Super (d : Disk) : Prop := superStart (d.sec 1) = A.start ∧ superNlog (d.sec 1) = A.size

theorem holds_start : A.Holds A.start := ⟨le_refl _, by have := A.size_pos; omega⟩

theorem not_holds_one : ¬ A.Holds 1 := by
  intro h
  have := A.super_outside
  unfold Holds at h
  omega

variable {A}

variable {sector : ℕ}

theorem Holds.onDrive (h : A.Holds sector) : OnDrive rootdev sector := by
  have := A.fits
  unfold Holds at h
  exact ⟨by decide, by omega⟩

theorem not_addr_of_not_holds (hs : sector < 2 ^ 28) (h : ¬ A.Holds sector) :
    ¬ A.Addr (lba rootdev sector) := by
  rintro ⟨sector', hh, he⟩
  have := (lba_inj ⟨by decide, hs⟩ hh.onDrive he).2
  exact h (this ▸ hh)

theorem Holds.addr (h : A.Holds sector) : A.Addr (lba rootdev sector) := ⟨_, h, rfl⟩

end LogArea

/-- No transaction is committed, and the sectors outside the log are those of `D`. -/
structure Idle (A : LogArea) (D d : Disk) : Prop where
  head : (d.sec A.start).read32 0 = 0
  same : ∀ a, ¬ A.Addr a → d a = D a

/-- The transaction with header `lh` is committed: the log blocks hold what `T` has at
their home sectors, and all other sectors are those of `T` already. -/
structure Committed (A : LogArea) (lh : LogHeader) (T d : Disk) : Prop where
  super : A.Super d
  head_n : (d.sec A.start).read32 0 = lh.n
  head_sector : ∀ i < lh.n, (d.sec A.start).read32 (4 + 4 * i) = lh.sector i
  block : ∀ i < lh.n, d.sec (A.start + i + 1) = T.sec (lh.sector i)
  home : ∀ a, ¬ A.Addr a → (∀ i < lh.n, a ≠ lba rootdev (lh.sector i)) → d a = T a

/-- The entries of a header fit the log area, and their sectors lie outside of it. -/
structure LogHeader.Fits (lh : LogHeader) (A : LogArea) : Prop where
  le : lh.n ≤ logsize
  room : lh.n + 1 ≤ A.size
  lt : ∀ i < lh.n, lh.sector i < 2 ^ 28
  outside : ∀ i < lh.n, ¬ A.Holds (lh.sector i)

variable {A : LogArea} {d T : Disk} {lh : LogHeader}

theorem Idle.super {D : Disk} (h : Idle A D d) (hs : A.Super D) : A.Super d := by
  have := h.same _ (LogArea.not_addr_of_not_holds (by decide) A.not_holds_one)
  unfold LogArea.Super Disk.sec at hs ⊢
  rwa [this]

theorem sec_update_of_ne {sector sector' : ℕ} {blk : Block}
    (h : OnDrive rootdev sector) (h' : OnDrive rootdev sector') (hne : sector' ≠ sector) :
    Disk.sec (update d (lba rootdev sector) blk) sector' = d.sec sector' :=
  update_of_ne (fun he => hne (lba_inj h' h he).2) _ _

theorem sec_update_self {sector : ℕ} {blk : Block} :
    Disk.sec (update d (lba rootdev sector) blk) sector = blk :=
  update_self ..

theorem LogHeader.Fits.holds (h : lh.Fits A) {i : ℕ}
    (hi : i < lh.n) : A.Holds (A.start + i + 1) := by
  have := h.room
  exact ⟨by omega, by omega⟩

theorem LogHeader.Fits.congr {lh' : LogHeader} (h : lh.Fits A)
    (hn : lh'.n = lh.n) (hs : ∀ i < lh.n, lh'.sector i = lh.sector i) : lh'.Fits A := by
  obtain ⟨n, sector⟩ := lh'
  obtain rfl : n = lh.n := hn
  exact ⟨h.le, h.room, fun i hi => hs i hi ▸ h.lt i hi, fun i hi => hs i hi ▸ h.outside i hi⟩

theorem Committed.congr {lh' : LogHeader} (h : Committed A lh T d)
    (hn : lh'.n = lh.n) (hs : ∀ i < lh.n, lh'.sector i = lh.sector i) : Committed A lh' T d := by
  obtain ⟨n, sector⟩ := lh'
  obtain rfl : n = lh.n := hn
  exact ⟨h.super, h.head_n, fun i hi => hs i hi ▸ h.head_sector i hi,
    fun i hi => hs i hi ▸ h.block i hi, fun a ha hne => h.home a ha fun i hi => hs i hi ▸ hne i hi⟩

/-- The header that `read_head` finds on a committed disk. -/
theorem Committed.load (h : Committed A lh T d)
    (lh0 : LogHeader) (hf : lh.Fits A) : (lh0.load (d.sec A.start)).n = lh.n ∧
      ∀ i < lh.n, (lh0.load (d.sec A.start)).sector i = lh.sector i := by
  have hle := hf.le
  have hlt : lh.n < 2 ^ 31 := by
    unfold logsize at hle
    omega
  unfold LogHeader.load
  dsimp only
  rw [h.head_n]
  exact ⟨if_pos hlt, fun i hi => (if_pos ⟨hi, hlt⟩).trans (h.head_sector i hi)⟩

/-- Recovery makes `T` of the disk. -/
def Pending (A : LogArea) (T d : Disk) : Prop := ∃ lh : LogHeader, lh.Fits A ∧ Committed A lh T d

/-- Without a transaction, recovery leaves the sectors as they are. -/
theorem Idle.pending {D : Disk} (h : Idle A D d) (hs : A.Super D) : Pending A D d :=
  ⟨⟨0, fun _ => 0⟩, ⟨Nat.zero_le _, A.size_pos, nofun, nofun⟩, h.super hs, h.head, nofun, nofun,
    fun a ha _ => h.same a ha⟩

/-- Installing one entry. -/
theorem Committed.install (h : Committed A lh T d)
    (hf : lh.Fits A) (hT : A.Super T) {k : ℕ} (hk : k < lh.n) :
    Committed A lh T (update d (lba rootdev (lh.sector k)) (T.sec (lh.sector k))) := by
  have hon : OnDrive rootdev (lh.sector k) := ⟨by decide, hf.lt k hk⟩
  have hlog : ∀ {sector}, A.Holds sector →
      Disk.sec (update d (lba rootdev (lh.sector k)) (T.sec (lh.sector k))) sector
        = d.sec sector := fun hs =>
    sec_update_of_ne hon hs.onDrive fun he => hf.outside k hk (he ▸ hs)
  constructor
  · by_cases h1 : lh.sector k = 1
    · unfold LogArea.Super
      rw [h1, sec_update_self]
      exact hT
    · unfold LogArea.Super
      rw [sec_update_of_ne hon ⟨by decide, by decide⟩ (Ne.symm h1)]
      exact h.super
  · rw [hlog A.holds_start]
    exact h.head_n
  · rw [hlog A.holds_start]
    exact h.head_sector
  · intro i hi
    rw [hlog (hf.holds hi)]
    exact h.block i hi
  · intro a ha hne
    rw [update_of_ne (hne k hk)]
    exact h.home a ha hne

/-! ### The state of the cache -/

/-- The cache is coherent, and holds no change of a log sector that is not on disk.
With `q` nothing else is going on: only the buffers in `H` are busy and none is
dirty, so that reads do not get stuck. -/
structure Steady (A : LogArea) (q : Bool) (s : LogSys) (m : ℕ → Bool) (l H : List ℕ) : Prop where
  inv : CacheInv s.c s.disk m l
  area : ∀ b ∈ l, (s.c.buf b).dev = rootdev → A.Holds (s.c.buf b).sector →
    (s.c.buf b).dirty = false ∧ m b = false
  quiet : q = true → H.Nodup ∧
    ∀ b ∈ l, (s.c.buf b).dirty = false ∧ ((s.c.buf b).busy = true ↔ b ∈ H)

namespace Steady

variable {A : LogArea} {q : Bool} {s s' : LogSys} {m : ℕ → Bool} {l H : List ℕ}

/-- Only the cache and the disk matter. -/
theorem congr (h : Steady A q s m l H) (hc : s'.c = s.c) (hd : s'.disk = s.disk) :
    Steady A q s' m l H := by
  refine ⟨?_, ?_, ?_⟩
  · rw [hc, hd]
    exact h.inv
  · rw [hc]
    exact h.area
  · rw [hc]
    exact h.quiet

theorem read (h : Steady A q s m l H) {dev sector : ℕ} (hon : OnDrive dev sector)
    (hkey : q = true → ∀ b ∈ H, ¬ ((s.c.buf b).dev = dev ∧ (s.c.buf b).sector = sector))
    (hlen : H.length < nbuf) :
    Wp (bufcacheRead true dev sector)
      (fun b s' => (∃ x, ReadBuf s s' m l dev sector b x) ∧ m b = false ∧ Steady A q s' m l (b :: H))
      (fun s' => q = false ∧ ∀ d, s'.Crash d → s.Crash d) s := by
  refine Outcome.mono (F := fun _ s' => q = false ∧ ∀ d, s'.Crash d → s.Crash d)
    (outcome_bufcacheRead h.inv hon) ?_ ?_
  · rintro b s' ⟨x, hx⟩
    have hm := h.inv.unmodified hx.mem hx.free
    refine ⟨⟨x, hx⟩, hm, hx.inv, ?_, ?_⟩
    · intro b' hb' hd hs
      by_cases he : b' = b
      · rw [he, hx.buf] at hd hs ⊢
        -- a dirty one was dirty before, as a buffer of the same log sector
        refine ⟨Bool.eq_false_iff.mpr fun hxd => ?_, hm⟩
        obtain ⟨h1, h2, h3⟩ := hx.dirty hxd
        rw [hx.dev_eq] at hd
        rw [hx.sector_eq] at hs
        exact nomatch h1.symm.trans (h.area b hx.mem (h2.trans hd) (h3.symm ▸ hs)).1
      · rw [hx.cache, setBuf_other s.c x he] at hd hs ⊢
        exact h.area b' hb' hd hs
    · intro hq
      obtain ⟨hnd, hfl⟩ := h.quiet hq
      have hbH : b ∉ H := fun hin => (nomatch hx.free.symm.trans ((hfl b hx.mem).2.mpr hin))
      refine ⟨nodup_cons.mpr ⟨hbH, hnd⟩, fun b' hb' => ?_⟩
      by_cases he : b' = b
      · rw [he, hx.buf]
        exact ⟨hx.dirty_eq.trans (hfl b hx.mem).1, iff_of_true hx.busy mem_cons_self⟩
      · rw [hx.cache, setBuf_other s.c x he, mem_cons]
        exact ⟨(hfl b' hb').1, (hfl b' hb').2.trans ⟨.inr, fun h => h.resolve_left he⟩⟩
  · rintro e s' ⟨hstuck, hcrash⟩
    refine ⟨?_, hcrash⟩
    by_contra hq
    rw [Bool.not_eq_false] at hq
    obtain ⟨-, hfl⟩ := h.quiet hq
    cases hstuck with
    | noDrive h => cases h
    | busy hb hd hs hbusy => exact hkey hq _ ((hfl _ hb).2.mp hbusy) ⟨hd, hs⟩
    | full hall =>
      have hsub : l ⊆ H := fun b hb => by
        rcases hall b hb with hbusy | hdirty
        · exact (hfl b hb).2.mp hbusy
        · rw [(hfl b hb).1] at hdirty
          cases hdirty
      have hnd : l.Nodup := h.inv.perm.nodup_iff.mpr nodup_range
      have := (subperm_of_subset hnd hsub).length_le
      rw [h.inv.length_eq] at this
      omega

variable {b : ℕ}

/-- The log sectors stay clean if a buffer becomes `x`. -/
theorem area_setBuf (h : Steady A q s m l H) {m' : ℕ → Bool} {x : Buf} (hm : ∀ i ≠ b, m' i = m i)
    (hx : x.dev = rootdev → A.Holds x.sector → x.dirty = false ∧ m' b = false) :
    ∀ b' ∈ l, ((s.c.setBuf b x).buf b').dev = rootdev → A.Holds ((s.c.setBuf b x).buf b').sector →
      ((s.c.setBuf b x).buf b').dirty = false ∧ m' b' = false := by
  intro b' hb' hd hs
  by_cases he : b' = b
  · rw [he, setBuf_self] at hd hs ⊢
    exact hx hd hs
  · rw [setBuf_other s.c _ he] at hd hs ⊢
    rw [hm b' he]
    exact h.area b' hb' hd hs

/-- A busy buffer gets new data and is written. -/
theorem write (h : Steady A q s m l H) (hb : b ∈ l) (hbusy : (s.c.buf b).busy = true)
    (hm : m b = false) (data : Block) :
    Wp (bufcacheWrite true b)
      (fun _ s' => Steady A q s' m l H ∧
        s'.c = s.c.setBuf b { s.c.buf b with valid := true, dirty := false, data := data } ∧
        s'.disk = update s.disk (lba (s.c.buf b).dev (s.c.buf b).sector) data ∧
        s'.log = s.log ∧ ∀ d, s'.Crash d → s.Crash d ∨ d = s'.disk)
      (fun s' => q = false ∧ ∀ d, s'.Crash d → s.Crash d) (s.setData b data) := by
  have hbuf : (s.setData b data).c.buf b = { s.c.buf b with data := data } := setBuf_self _ _ _
  refine wp_bufcacheWrite (by rw [hbuf]; exact hbusy) ?_ nofun
  rw [hbuf]
  have hc : (s.setData b data).c.setBuf b
      { s.c.buf b with valid := true, dirty := false, data := data }
      = s.c.setBuf b { s.c.buf b with valid := true, dirty := false, data := data } :=
    setBuf_setBuf _ _ _ _
  refine ⟨⟨?_, ?_, ?_⟩, hc, rfl, rfl, ?_⟩
  · dsimp only
    rw [hc]
    exact h.inv.setBuf hb (h.inv.used_of_busy hb hbusy) rfl rfl
      (fun a ha => update_of_ne ha _ _) (fun _ _ => rfl)
      (fun _ => hbusy) (fun _ => rfl) (fun _ _ _ => by simp)
  · dsimp only
    rw [hc]
    exact h.area_setBuf (fun _ _ => rfl) fun _ _ => ⟨rfl, hm⟩
  · intro hq
    obtain ⟨hnd, hfl⟩ := h.quiet hq
    dsimp only
    rw [hc]
    refine ⟨hnd, fun b' hb' => ?_⟩
    by_cases he : b' = b
    · rw [he, setBuf_self]
      exact ⟨rfl, (hfl b hb).2⟩
    · rw [setBuf_other s.c _ he]
      exact hfl b' hb'
  · intro d hd
    rcases hd with rfl | hd
    · exact .inr rfl
    · exact .inl ((mem_cons.mp hd).imp_right id)

/-- A busy buffer is released. -/
theorem release (h : Steady A q s m l H) (hb : b ∈ l) (hbusy : (s.c.buf b).busy = true)
    (hm : m b = false) :
    ∃ l', (∀ i, i ∈ l' ↔ i ∈ l) ∧
      Steady A q { s with c := s.c.bufcacheRelease b } m l' (H.erase b) := by
  obtain ⟨l', hl'⟩ := h.inv.release hb (h.inv.used_of_busy hb hbusy) hm
  have hmem : ∀ i, i ∈ l' ↔ i ∈ l := fun i => by
    rw [hl'.perm.mem_iff, h.inv.perm.mem_iff]
  have hbuf : (s.c.bufcacheRelease b).buf = (s.c.setBuf b { s.c.buf b with busy := false }).buf :=
    rfl
  refine ⟨l', hmem, hl', ?_, ?_⟩
  · exact fun b' hb' => h.area_setBuf (x := { s.c.buf b with busy := false }) (fun _ _ => rfl)
      (h.area b hb) b' ((hmem b').mp hb')
  · intro hq
    obtain ⟨hnd, hfl⟩ := h.quiet hq
    refine ⟨hnd.erase b, fun b' hb' => ?_⟩
    dsimp only
    rw [hbuf, hnd.mem_erase_iff]
    by_cases he : b' = b
    · rw [he, setBuf_self]
      exact ⟨(hfl b hb).1, by simp⟩
    · rw [setBuf_other s.c _ he]
      obtain ⟨h1, h2⟩ := hfl b' ((hmem b').mp hb')
      exact ⟨h1, h2.trans ⟨fun h => ⟨he, h⟩, fun h => h.2⟩⟩

/-- `b->flags |= B_DIRTY` on a buffer outside the log. -/
theorem setDirty (h : Steady A false s m l []) (hb : b ∈ l)
    (hbusy : (s.c.buf b).busy = true) (hvalid : (s.c.buf b).valid = true)
    (hout : ¬ A.Holds (s.c.buf b).sector) :
    Steady A false (s.setDirty b) (update m b false) l [] := by
  have hm' : ∀ i ≠ b, update m b false i = m i := fun i hi => update_of_ne hi _ _
  refine ⟨?_, h.area_setBuf hm' fun _ hs => absurd hs hout, nofun⟩
  exact h.inv.setBuf hb (h.inv.used_of_busy hb hbusy) rfl rfl (fun _ _ => rfl) hm'
    (fun _ => hbusy) (fun _ => hvalid) (fun _ hd => by cases hd)

end Steady

/-! ### The header and the home sectors -/

section Install

variable {A : LogArea} {q : Bool} {s : LogSys} {m : ℕ → Bool} {l : List ℕ}

/-- The log is the one the superblock describes. -/
def LogSys.At (s : LogSys) (A : LogArea) : Prop := s.log.dev = rootdev ∧ s.log.start = A.start

variable {G : Disk → Prop} {T d : Disk} {E : LogSys → Prop}

theorem wp_writeHead (h : Steady A q s m l []) (hat : s.At A) (hG : ∀ d, s.Crash d → G d)
    (hnew : ∀ data, G (update s.disk (lba rootdev A.start) (s.log.lh.headBlock data))) :
    Wp (writeHead true)
      (fun _ s' => (∃ l', Steady A q s' m l' []) ∧ s'.log = s.log ∧ (∃ data, s'.disk
          = update s.disk (lba rootdev A.start) (s.log.lh.headBlock data)) ∧
        ∀ d, s'.Crash d → G d)
      (fun s' => q = false ∧ ∀ d, s'.Crash d → G d) s := by
  unfold writeHead
  rw [wp_bind, wp_get, hat.1, hat.2, wp_bind]
  refine (h.read A.holds_start.onDrive nofun
    (by decide)).mono ?_ fun s' hs' => ⟨hs'.1, fun d hd => hG d (hs'.2 d hd)⟩
  rintro buf s1 ⟨⟨x, hx⟩, hm, h1⟩
  have hbusy : (s1.c.buf buf).busy = true := by rw [hx.buf, hx.busy]
  have haddr : lba (s1.c.buf buf).dev (s1.c.buf buf).sector = lba rootdev A.start := by
    rw [hx.buf, hx.dev_eq, hx.sector_eq]
  rw [wp_bind, wp_modify, wp_bind]
  refine (h1.write hx.mem hbusy hm _).mono ?_
    fun s' hs' => ⟨hs'.1, fun d hd => hG d (hx.crash d (hs'.2 d hd))⟩
  rintro ⟨⟩ s2 ⟨h2, hc, hd, hlog, hcrash⟩
  rw [haddr, hx.disk_eq, hx.log_eq] at hd
  refine wp_bufcacheRelease (by rw [hc, setBuf_self]; exact hbusy) ?_
  obtain ⟨l', -, h3⟩ := h2.release hx.mem (by rw [hc, setBuf_self]; exact hbusy) hm
  rw [erase_cons_head] at h3
  refine ⟨⟨l', h3⟩, hlog.trans hx.log_eq, ⟨_, hd⟩, fun d hd' => ?_⟩
  rcases hcrash d hd' with hd' | rfl
  · exact hG d (hx.crash d hd')
  · rw [hd]
    exact hnew _

/-- The state before entry `k` is installed. -/
structure Installing (A : LogArea) (q : Bool) (m : ℕ → Bool) (lh : LogHeader) (T : Disk)
    (G : Disk → Prop) (k : ℕ) (s : LogSys) : Prop where
  steady : ∃ l, Steady A q s m l []
  at_area : s.At A
  committed : Committed A lh T s.disk
  done : ∀ i < k, s.disk.sec (lh.sector i) = T.sec (lh.sector i)
  crash : ∀ d, s.Crash d → G d

/-- One pass of the loop of `install_trans`. -/
theorem wp_installEntry {lh : LogHeader} {k : ℕ} (hf : lh.Fits A)
    (hT : A.Super T) (hG : ∀ d, Committed A lh T d → G d) (hk : k < lh.n)
    (h : Installing A q m lh T G k s) :
    Wp (do
        let lbuf ← bufcacheRead true rootdev (A.start + k + 1)
        let dbuf ← bufcacheRead true rootdev (lh.sector k)
        modify fun s => s.setData dbuf (s.c.buf lbuf).data
        bufcacheWrite true dbuf
        bufcacheRelease lbuf
        bufcacheRelease dbuf)
      (fun _ s' => s'.log = s.log ∧ Installing A q m lh T G (k + 1) s')
      (fun s' => q = false ∧ ∀ d, s'.Crash d → G d) s := by
  obtain ⟨l, hst⟩ := h.steady
  have hhold := hf.holds hk
  have hout := hf.outside k hk
  rw [wp_bind]
  refine (hst.read hhold.onDrive nofun (by decide)).mono ?_
    fun s' hs' => ⟨hs'.1, fun d hd => h.crash d (hs'.2 d hd)⟩
  rintro lbuf s1 ⟨⟨x, hx⟩, hm, h1⟩
  have hxdata : x.data = T.sec (lh.sector k) := by
    have hclean := h1.area lbuf hx.mem (by rw [hx.buf, hx.dev_eq])
      (by rw [hx.buf, hx.sector_eq]; exact hhold)
    rw [hx.buf] at hclean
    rw [hx.data hclean.1 hclean.2]
    exact h.committed.block k hk
  rw [wp_bind]
  refine (h1.read ⟨by decide, hf.lt k hk⟩ ?_ (by simp [nbuf])).mono ?_
    fun s' hs' => ⟨hs'.1, fun d hd => h.crash d (hx.crash d (hs'.2 d hd))⟩
  · intro _ b hb
    rw [mem_singleton.mp hb, hx.buf, hx.sector_eq]
    exact fun he => hout (he.2 ▸ hhold)
  rintro dbuf s2 ⟨⟨y, hy⟩, hm', h2⟩
  have hne : lbuf ≠ dbuf := fun he => by
    have := hy.free
    rw [← he, hx.buf, hx.busy] at this
    cases this
  have hlbuf : s2.c.buf lbuf = x := by rw [hy.cache, setBuf_other _ _ hne, hx.buf]
  have hbusy : (s2.c.buf dbuf).busy = true := by rw [hy.buf, hy.busy]
  have haddr : lba (s2.c.buf dbuf).dev (s2.c.buf dbuf).sector = lba rootdev (lh.sector k) := by
    rw [hy.buf, hy.dev_eq, hy.sector_eq]
  rw [wp_bind, wp_modify, hlbuf, hxdata, wp_bind]
  refine (h2.write hy.mem hbusy hm' _).mono ?_
    fun s' hs' => ⟨hs'.1, fun d hd => h.crash d (hx.crash d (hy.crash d (hs'.2 d hd)))⟩
  rintro ⟨⟩ s3 ⟨h3, hc, hd, hlog, hcrash⟩
  rw [haddr, hy.disk_eq, hx.disk_eq] at hd
  have hl3 : (s3.c.buf lbuf).busy = true := by rw [hc, setBuf_other _ _ hne, hlbuf, hx.busy]
  rw [wp_bind]
  refine wp_bufcacheRelease hl3 ?_
  obtain ⟨l', hl', h4⟩ := h3.release hx.mem hl3 hm
  have hd4 : ((s3.c.bufcacheRelease lbuf).buf dbuf).busy = true := by
    show ((s3.c.setBuf lbuf _).buf dbuf).busy = true
    rw [setBuf_other _ _ hne.symm, hc, setBuf_self]
    exact hbusy
  refine wp_bufcacheRelease hd4 ?_
  obtain ⟨l'', -, h5⟩ := h4.release ((hl' dbuf).mpr hy.mem) hd4 hm'
  have hnew : Committed A lh T s3.disk := by
    rw [hd]
    exact h.committed.install hf hT hk
  have hH : ((dbuf :: lbuf :: []).erase lbuf).erase dbuf = [] := by
    rw [erase_cons_tail (by simpa using hne.symm), erase_cons_head, erase_cons_head]
  rw [hH] at h5
  have hlog' : s3.log = s.log := hlog.trans (hy.log_eq.trans hx.log_eq)
  refine ⟨hlog', ⟨l'', h5⟩, ?_, hnew, ?_, ?_⟩
  · unfold LogSys.At
    dsimp only
    rw [hlog']
    exact h.at_area
  · intro i hi
    dsimp only
    rw [hd]
    by_cases he : lh.sector i = lh.sector k
    · rw [he, sec_update_self]
    · rw [sec_update_of_ne ⟨by decide, hf.lt k hk⟩ ⟨by decide, hf.lt i (by omega)⟩ he]
      refine h.done i ?_
      have : i ≠ k := fun hik => he (hik ▸ rfl)
      omega
  · intro d hd'
    rcases hcrash d hd' with hd' | rfl
    · exact h.crash d (hx.crash d (hy.crash d hd'))
    · exact hG _ hnew

theorem Installing.home {lh : LogHeader}
    (h : Installing A q m lh T G lh.n s) {a : ℕ} (ha : ¬ A.Addr a) : s.disk a = T a := by
  by_cases hex : ∃ i < lh.n, a = lba rootdev (lh.sector i)
  · obtain ⟨i, hi, rfl⟩ := hex
    exact h.done i hi
  · exact h.committed.home a ha fun i hi he => hex ⟨i, hi, he⟩

/-- Writing an empty header ends a transaction whose sectors are all in place. -/
theorem idle_erase (lh : LogHeader) (hn : lh.n = 0)
    (h : ∀ a, ¬ A.Addr a → d a = T a) (data : Block) :
    Idle A T (update d (lba rootdev A.start) (lh.headBlock data)) where
  head := by
    rw [sec_update_self, LogHeader.read32_headBlock_n (by rw [hn]; decide), hn]
  same := fun a ha => by
    have hne : a ≠ lba rootdev A.start := fun he => ha (he ▸ A.holds_start.addr)
    rw [update_of_ne hne]
    exact h a ha

/-- **Installation and erasure.**  The transaction ends up in its home sectors, and
every disk on the way is committed or already done. -/
theorem wp_installAndErase (hst : Steady A q s m l [])
    (hat : s.At A) (hf : s.log.lh.Fits A) (hT : A.Super T)
    (hcom : Committed A s.log.lh T s.disk) (hcrash : ∀ d, s.Crash d → G d)
    (hG : ∀ d, Committed A s.log.lh T d → G d) (hG' : ∀ d, Idle A T d → G d) :
    Wp (installAndErase true)
      (fun _ s' => (∃ l', Steady A q s' m l' []) ∧ Idle A T s'.disk ∧
        s'.log = { s.log with lh := { s.log.lh with n := 0 } } ∧ ∀ d, s'.Crash d → G d)
      (fun s' => q = false ∧ ∀ d, s'.Crash d → G d) s := by
  have h0 : Installing A q m s.log.lh T G 0 s :=
    ⟨⟨l, hst⟩, hat, hcom, nofun, hcrash⟩
  unfold installAndErase installTrans
  rw [wp_bind, wp_bind, wp_get, hat.1, hat.2]
  refine (wp_forRange (fun k s' => s'.log = s.log ∧ Installing A q m s.log.lh T G k s')
    s.log.lh.n ⟨rfl, h0⟩ ?_).mono ?_ fun _ h => h
  · rintro k - hk s' ⟨hlog, hs'⟩
    refine (wp_installEntry hf hT hG (by omega) hs').mono ?_ fun _ h => h
    rintro - s'' ⟨hlog', hs''⟩
    exact ⟨hlog'.trans hlog, hs''⟩
  · rintro - s1 ⟨hlog, h1⟩
    rw [Nat.zero_add] at h1
    obtain ⟨l1, hst1⟩ := h1.steady
    rw [wp_bind, wp_modify]
    have hat2 : (s1.setHeader { s1.log.lh with n := 0 }).At A := h1.at_area
    refine (wp_writeHead (s := s1.setHeader { s1.log.lh with n := 0 }) (hst1.congr rfl rfl) hat2
      h1.crash
      fun data => hG' _ (idle_erase _ rfl (fun a ha => h1.home ha) data)).mono ?_ fun _ h => h
    rintro - s2 ⟨hst2, hlog2, ⟨data, hd⟩, hcr⟩
    refine ⟨hst2, ?_, ?_, hcr⟩
    · rw [hd]
      exact idle_erase _ rfl (fun a ha => h1.home ha) data
    · rw [hlog2, ← hlog]
      rfl

/-! ### Recovery -/

/-- What is left of a read that is released at once, on a quiet system. -/
structure Peeked (A : LogArea) (s s' : LogSys) (m : ℕ → Bool) : Prop where
  steady : ∃ l', Steady A true s' m l' []
  disk_eq : s'.disk = s.disk
  crash : ∀ d, s'.Crash d → s.Crash d

/-- A read on a quiet system finds the contents of the disk, and its buffer can be
released. -/
theorem Steady.peek (h : Steady A true s m l []) {dev sector : ℕ} (hon : OnDrive dev sector) :
    Wp (bufcacheRead true dev sector)
      (fun b s' => (s'.c.buf b).data = s.disk (lba dev sector) ∧ s'.log = s.log ∧
        (s'.c.buf b).busy = true ∧ Peeked A s { s' with c := s'.c.bufcacheRelease b } m) E s := by
  refine (h.read hon nofun (by decide)).mono ?_ fun _ hs' => nomatch hs'.1
  rintro b s1 ⟨⟨x, hx⟩, hm, h1⟩
  have hclean := ((h1.quiet rfl).2 b hx.mem).1
  have hbusy : (s1.c.buf b).busy = true := by rw [hx.buf, hx.busy]
  rw [hx.buf] at hclean
  obtain ⟨l', -, h2⟩ := h1.release hx.mem hbusy hm
  rw [erase_cons_head] at h2
  refine ⟨?_, hx.log_eq, hbusy, ⟨l', h2⟩, hx.disk_eq, hx.crash⟩
  rw [hx.buf]
  exact hx.data hclean hm

/-- `log_init` up to the header: the log is the one of the superblock, with the header
that is on disk. -/
theorem wp_logInit {Q : PUnit → LogSys → Prop}
    (h : Steady A true s m l []) (hsuper : A.Super s.disk)
    (hQ : ∀ s' l', Steady A true s' m l' [] → s'.At A →
      s'.log.lh = s.log.lh.load (s.disk.sec A.start) → s'.log.size = A.size →
      s'.log.busy = s.log.busy → s'.disk = s.disk → (∀ d, s'.Crash d → s.Crash d) →
      Wp (installAndErase true) Q E s') :
    Wp (logInit true) Q E s := by
  unfold logInit recoverFromLog readHead
  rw [wp_bind]
  refine (h.peek ⟨by decide, by decide⟩).mono ?_ fun _ h => h
  rintro bp s1 ⟨hdata, hlog, hbusy, hp⟩
  obtain ⟨l1, hst1⟩ := hp.steady
  rw [wp_bind, wp_get, wp_bind]
  refine wp_bufcacheRelease hbusy ?_
  rw [wp_bind, wp_modify, wp_bind, wp_bind, wp_get, wp_bind]
  dsimp only
  rw [hdata, show superStart (s.disk (lba rootdev 1)) = A.start from hsuper.1,
    show superNlog (s.disk (lba rootdev 1)) = A.size from hsuper.2]
  refine (Steady.peek (hst1.congr ?_ ?_) A.holds_start.onDrive).mono ?_ fun _ h => h
  · rfl
  · rfl
  rintro buf s2 ⟨hdata2, hlog2, hbusy2, hp2⟩
  obtain ⟨l2, hst2⟩ := hp2.steady
  rw [wp_bind, wp_modify]
  refine wp_bufcacheRelease hbusy2 (hQ _ l2 (hst2.congr rfl rfl) ?_ ?_ ?_ ?_ ?_ ?_)
  · exact ⟨congrArg Log.dev hlog2, congrArg Log.start hlog2⟩
  · show (s2.log.lh.load (s2.c.buf buf).data) = _
    rw [hdata2, hlog2, hlog, show s1.disk = s.disk from hp.disk_eq]
    rfl
  · exact congrArg Log.size hlog2
  · exact (congrArg Log.busy hlog2).trans (show s1.log.busy = s.log.busy by rw [hlog])
  · exact hp2.disk_eq.trans hp.disk_eq
  · exact fun d hd => hp.crash d (hp2.crash d hd)

theorem wp_logInit_pending (hT : A.Super T) (h : Steady A true s m l [])
    (hbusy : s.log.busy = false) (hp : Pending A T s.disk)
    (hcr : ∀ d, s.Crash d → Pending A T d) :
    Wp (logInit true)
      (fun _ s' => (∃ l, Steady A true s' m l []) ∧ s'.At A ∧ s'.log.size = A.size ∧
        s'.log.lh.n = 0 ∧ s'.log.busy = false ∧ Idle A T s'.disk ∧
        ∀ d, s'.Crash d → Pending A T d)
      (fun _ => False) s := by
  obtain ⟨lh, hf, hcom⟩ := hp
  refine wp_logInit h hcom.super fun s' l' hst hat hlh hsize hbusy' hdisk hcr' => ?_
  obtain ⟨hn, hs⟩ := hcom.load s.log.lh hf
  rw [← hlh] at hn hs
  have hcom' : Committed A s'.log.lh T s'.disk := hdisk ▸ hcom.congr hn hs
  have hf' := hf.congr hn hs
  refine (wp_installAndErase (G := Pending A T) hst hat hf' hT hcom'
    (fun d hd => hcr d (hcr' d hd)) (fun d hd => ⟨_, hf', hd⟩)
    (fun d hd => hd.pending hT)).mono ?_ fun _ h => nomatch h.1
  rintro - s'' ⟨hst', hidle, hlog, hcr''⟩
  refine ⟨hst', ?_, ?_, ?_, ?_, hidle, hcr''⟩
  · unfold LogSys.At
    rw [hlog]
    exact hat
  · rw [hlog]
    exact hsize
  · rw [hlog]
  · rw [hlog]
    exact hbusy'.trans hbusy

/-- The machine after a restart. -/
@[irreducible] def boot (d : Disk) : LogSys :=
  ⟨bufcacheInit, d, ⟨0, 0, false, 0, ⟨0, fun _ => 0⟩⟩, []⟩

theorem steady_boot (A : LogArea) (d : Disk) :
    Steady A true (boot d) (fun _ => false) (range nbuf).reverse [] := by
  unfold boot
  exact ⟨cacheInv_bufcacheInit d, fun _ _ _ _ => ⟨rfl, rfl⟩, fun _ => ⟨nodup_nil, fun _ _ =>
    ⟨rfl, iff_of_false Bool.false_ne_true not_mem_nil⟩⟩⟩

theorem boot_disk (d : Disk) : (boot d).disk = d := by unfold boot; rfl

theorem boot_busy (d : Disk) : (boot d).log.busy = false := by unfold boot; rfl

theorem crash_boot {d' : Disk} (h : (boot d).Crash d') : d' = d := by
  unfold boot at h
  exact h.resolve_right not_mem_nil

/-- The state in which a program ends, also if it stops. -/
def endState {α : Type} : EStateM.Result Stop LogSys α → LogSys
  | .ok _ s => s
  | .error _ s => s

theorem of_endState {α : Type} {m : LogM α} {s : LogSys} {Q : α → LogSys → Prop}
    {P : LogSys → Prop} (h : Wp m Q E s) (hQ : ∀ a s', Q a s' → P s')
    (hE : ∀ s', E s' → P s') : P (endState (m s)) := by
  unfold Wp at h
  cases hm : m s with
  | ok a s' =>
    rw [hm] at h
    exact hQ a s' h
  | error e s' =>
    rw [hm] at h
    exact hE s' h

/-- Nothing is going on, and no transaction is in the log. -/
structure Ready (A : LogArea) (s : LogSys) : Prop where
  steady : ∃ l, Steady A false s (fun _ => false) l []
  at_area : s.At A
  size : s.log.size = A.size
  empty : s.log.lh.n = 0
  head : (s.disk.sec A.start).read32 0 = 0
  super : A.Super s.disk

/-- **Recovery.**  `log_init` ends with the transaction in place and an empty header,
and whenever it is interrupted, the next recovery does the same. -/
theorem logInit_recovers (hT : A.Super T) (h : Pending A T d) :
    ∃ s', logInit true (boot d) = .ok ⟨⟩ s' ∧ Ready A s' ∧ Idle A T s'.disk ∧
      ∀ d', s'.Crash d' → Pending A T d' := by
  obtain ⟨⟨⟩, s', hrun, ⟨l, hst⟩, hat, hsize, hn, -, hidle, hcr⟩ :=
    (wp_logInit_pending hT (steady_boot A d) (boot_busy d) (by rw [boot_disk]; exact h)
      fun d' hd' => crash_boot hd' ▸ h).exists_ok
  exact ⟨s', hrun, ⟨⟨l, hst.inv, hst.area, nofun⟩, hat, hsize, hn, hidle.head,
    hidle.super hT⟩, hidle, hcr⟩

/-- A crash during `log_init`. -/
def RecoveryCrash (d d' : Disk) : Prop := (endState (logInit true (boot d))).Crash d'

theorem pending_of_crashes {d' : Disk} (hT : A.Super T) (h : Pending A T d)
    (hcr : ReflTransGen RecoveryCrash d d') : Pending A T d' := by
  induction hcr with
  | refl => exact h
  | tail _ hstep ih =>
    obtain ⟨s', hrun, -, -, hs'⟩ := logInit_recovers hT ih
    unfold RecoveryCrash at hstep
    rw [hrun] at hstep
    exact hs' _ hstep

end Install

/-! ### The header in memory -/

namespace LogHeader

/-- The header after `log_write` of a sector. -/
def enter (lh : LogHeader) (sector : ℕ) : LogHeader where
  n := if lh.slot sector = lh.n then lh.slot sector + 1 else lh.n
  sector := update lh.sector (lh.slot sector) sector

variable {lh : LogHeader} {sector : ℕ}

variable {j : ℕ}

theorem lt_enter_n : j < (lh.enter sector).n ↔ j < lh.n ∨ j = lh.slot sector := by
  have := (lh.slot_spec sector).1
  unfold enter
  dsimp only
  split <;> omega

theorem enter_sector_slot : (lh.enter sector).sector (lh.slot sector) = sector :=
  update_self ..

theorem enter_sector_of_ne (hj : j ≠ lh.slot sector) : (lh.enter sector).sector j = lh.sector j :=
  update_of_ne hj _ _

/-- Only the entry in use for a sector has it. -/
theorem sector_ne_of_ne_slot (hd : ∀ i < lh.n, ∀ j < lh.n, lh.sector i = lh.sector j → i = j)
    (hj : j < lh.n) (hne : j ≠ lh.slot sector) : lh.sector j ≠ sector := by
  obtain ⟨hle, hsec, hbefore⟩ := lh.slot_spec sector
  intro he
  rcases Nat.lt_or_ge j (lh.slot sector) with hlt | hge
  · exact hbefore j hlt he
  · have hlt : lh.slot sector < lh.n := by omega
    exact hne (hd j hj _ hlt (he.trans (hsec hlt).symm))

theorem enter_distinct (hd : ∀ i < lh.n, ∀ j < lh.n, lh.sector i = lh.sector j → i = j) :
    ∀ i < (lh.enter sector).n, ∀ j < (lh.enter sector).n,
      (lh.enter sector).sector i = (lh.enter sector).sector j → i = j := by
  intro i hi j hj he
  rw [lt_enter_n] at hi hj
  by_cases hie : i = lh.slot sector
  · by_cases hje : j = lh.slot sector
    · rw [hie, hje]
    · rw [hie, enter_sector_slot, enter_sector_of_ne hje] at he
      exact absurd he.symm (sector_ne_of_ne_slot hd (hj.resolve_right hje) hje)
  · by_cases hje : j = lh.slot sector
    · rw [hje, enter_sector_slot, enter_sector_of_ne hie] at he
      exact absurd he (sector_ne_of_ne_slot hd (hi.resolve_right hie) hie)
    · rw [enter_sector_of_ne hie, enter_sector_of_ne hje] at he
      exact hd i (hi.resolve_right hie) j (hj.resolve_right hje) he

/-- What holds for the sector and for the entries holds for all entries after `enter`. -/
theorem forall_enter {P : ℕ → Prop} (hs : P sector) (h : ∀ i < lh.n, P (lh.sector i)) :
    ∀ i < (lh.enter sector).n, P ((lh.enter sector).sector i) := by
  intro i hi
  by_cases hie : i = lh.slot sector
  · rw [hie, enter_sector_slot]
    exact hs
  · rw [enter_sector_of_ne hie]
    exact h i ((lt_enter_n.mp hi).resolve_right hie)

theorem Fits.enter {A : LogArea} (h : lh.Fits A) (hlt : lh.n < logsize)
    (hroom : lh.n + 1 < A.size) (hs : sector < 2 ^ 28) (hout : ¬ A.Holds sector) :
    (lh.enter sector).Fits A := by
  have hn : (lh.enter sector).n ≤ lh.n + 1 := by
    have := (lh.slot_spec sector).1
    unfold LogHeader.enter
    dsimp only
    split <;> omega
  exact ⟨by omega, by omega, forall_enter (P := (· < 2 ^ 28)) hs h.lt,
    forall_enter (P := (¬ A.Holds ·)) hout h.outside⟩

end LogHeader

/-! ### Transactions -/

/-- The disk with the contents given to `log_write`, in order, so that the last one for
a sector counts. -/
def installed (logged : List (ℕ × Block)) (D : Disk) : Disk :=
  logged.foldl (fun d w => update d (lba rootdev w.1) w.2) D

theorem installed_append (logged : List (ℕ × Block)) (D : Disk) (w : ℕ × Block) :
    installed (logged ++ [w]) D = update (installed logged D) (lba rootdev w.1) w.2 := by
  simp [installed]

theorem installed_of_not_logged {logged : List (ℕ × Block)} {a : ℕ}
    (h : ∀ w ∈ logged, a ≠ lba rootdev w.1) (D : Disk) : installed logged D a = D a := by
  induction logged generalizing D with
  | nil => rfl
  | cons w logged ih =>
    refine (ih (fun w' hw' => h w' (mem_cons_of_mem _ hw')) _).trans ?_
    exact update_of_ne (h w mem_cons_self) _ _

/-- A transaction that is going on: the buffers somebody holds, the changed ones that
have not been logged yet, and what has been logged. -/
structure Trans where
  s : LogSys
  held : List ℕ
  modified : ℕ → Bool
  logged : List (ℕ × Block)

/-- The buffer may be given to `log_write`: it is outside the log, and if it is the
superblock, it still points at the log. -/
def LogArea.MayLog (A : LogArea) (x : Buf) : Prop :=
  ¬ A.Holds x.sector ∧ (x.sector = 1 → superStart x.data = A.start ∧ superNlog x.data = A.size)

/-- The steps between `begin_trans` and `commit_trans`, with the buffers in `may` given
to `log_write`. -/
inductive Trans.Step (A : LogArea) (may : Buf → Prop) : Trans → Trans → Prop
  | read {t : Trans} {sector b : ℕ} {s' : LogSys} (hs : sector < 2 ^ 28)
      (h : bufcacheRead true rootdev sector t.s = .ok b s') :
      Step A may t { t with s := s', held := b :: t.held }
  | modify {t : Trans} {b : ℕ} (data : Block) (hb : b ∈ t.held)
      (hout : ¬ A.Holds (t.s.c.buf b).sector) :
      Step A may t { t with s := t.s.setData b data, modified := update t.modified b true }
  | logWrite {t : Trans} {b : ℕ} {s' : LogSys} (hb : b ∈ t.held) (hlog : may (t.s.c.buf b))
      (h : logWrite true b t.s = .ok ⟨⟩ s') :
      Step A may t { t with
        s := s'
        modified := update t.modified b false
        logged := t.logged ++ [((t.s.c.buf b).sector, (t.s.c.buf b).data)] }
  | release {t : Trans} {b : ℕ} {s' : LogSys} (hb : b ∈ t.held) (hm : t.modified b = false)
      (h : bufcacheRelease b t.s = .ok ⟨⟩ s') :
      Step A may t { t with s := s', held := t.held.erase b }

/-- The disks on which the machine may stop during a transaction: between the calls,
inside `log_write`, or inside `commit_trans`. -/
inductive Trans.Crash (A : LogArea) (t : Trans) (d : Disk) : Prop
  | between (h : t.s.Crash d)
  | inLogWrite {b : ℕ} (hb : b ∈ t.held) (hlog : A.MayLog (t.s.c.buf b))
      (h : (endState (logWrite true b t.s)).Crash d)
  | inCommit (h : (endState (commitTrans true t.s)).Crash d)

namespace Trans

variable {A : LogArea} {D : Disk} {t t' : Trans}

/-- The log and the disk after the writes in `logged`, on a disk that was `D` before them. -/
structure Logged (A : LogArea) (D : Disk) (logged : List (ℕ × Block)) (log : Log) (disk : Disk) :
    Prop where
  at_area : log.dev = rootdev ∧ log.start = A.start
  size : log.size = A.size
  fits : log.lh.Fits A
  distinct : ∀ i < log.lh.n, ∀ j < log.lh.n, log.lh.sector i = log.lh.sector j → i = j
  block : ∀ i < log.lh.n,
    disk.sec (A.start + i + 1) = (installed logged D).sec (log.lh.sector i)
  cover : ∀ w ∈ logged, ∃ i < log.lh.n, log.lh.sector i = w.1
  super : A.Super (installed logged D)
  idle : Idle A D disk

/-- The invariant of a transaction on a disk that was `D` before it. -/
structure Inv (A : LogArea) (D : Disk) (t : Trans) : Prop
    extends Logged A D t.logged t.s.log t.s.disk where
  steady : ∃ l, Steady A false t.s t.modified l []
  nodup : t.held.Nodup
  held : ∀ b ∈ t.held, b < nbuf ∧ (t.s.c.buf b).busy = true ∧ (t.s.c.buf b).valid = true ∧
    (t.s.c.buf b).dev = rootdev ∧ (t.s.c.buf b).sector < 2 ^ 28
  crash : ∀ d, t.s.Crash d → Idle A D d

variable {b sector : ℕ} {s' s s₀ : LogSys} {d : Disk} {data : Block}
variable {hist : List (Bool × List (ℕ × Block))}

theorem Inv.read (h : Inv A D t) (hs : sector < 2 ^ 28)
    (hrun : bufcacheRead true rootdev sector t.s = .ok b s') :
    Inv A D { t with s := s', held := b :: t.held } := by
  obtain ⟨l, hst⟩ := h.steady
  obtain ⟨⟨x, hx⟩, -, hst'⟩ := (hst.read ⟨by decide, hs⟩ nofun (by decide)).ok hrun
  have hbl : b < nbuf := mem_range.mp (hst.inv.perm.mem_iff.mp hx.mem)
  have hfree : b ∉ t.held := fun hb => (nomatch hx.free.symm.trans (h.held b hb).2.1)
  refine ⟨?_, ⟨l, hst'.inv, hst'.area, nofun⟩, nodup_cons.mpr ⟨hfree, h.nodup⟩, ?_,
    fun d hd => h.crash d (hx.crash d hd)⟩ <;> dsimp only
  · rw [hx.log_eq, hx.disk_eq]
    exact h.toLogged
  · intro b' hb'
    by_cases he : b' = b
    · rw [he, hx.buf, hx.dev_eq, hx.sector_eq]
      exact ⟨hbl, hx.busy, hx.valid, rfl, hs⟩
    · rw [hx.cache, setBuf_other _ _ he]
      exact h.held b' ((mem_cons.mp hb').resolve_left he)

theorem Inv.modify (h : Inv A D t) (hb : b ∈ t.held)
    (hout : ¬ A.Holds (t.s.c.buf b).sector) (data : Block) :
    Inv A D { t with s := t.s.setData b data, modified := update t.modified b true } := by
  obtain ⟨l, hst⟩ := h.steady
  obtain ⟨hlt, hbusy, hvalid, hdev, hsec⟩ := h.held b hb
  have hbl : b ∈ l := hst.inv.perm.mem_iff.mpr (mem_range.mpr hlt)
  have hst' : Steady A false (t.s.setData b data) (update t.modified b true) l [] := by
    have hm' : ∀ i ≠ b, update t.modified b true i = t.modified i := fun i hi => update_of_ne hi _ _
    refine ⟨?_, hst.area_setBuf hm' fun _ hs => absurd hs hout, nofun⟩
    exact hst.inv.setBuf hbl (hst.inv.used_of_busy hbl hbusy) rfl rfl (fun _ _ => rfl) hm'
      (fun _ => hbusy) (hst.inv.dirty_valid b hbl) (fun _ _ hm => by simp at hm)
  refine ⟨h.toLogged, ⟨l, hst'⟩, h.nodup, ?_, h.crash⟩
  intro b' hb'
  dsimp only
  by_cases he : b' = b
  · rw [he]
    unfold LogSys.setData LogSys.setBuf
    rw [setBuf_self]
    exact ⟨hlt, hbusy, hvalid, hdev, hsec⟩
  · rw [show (t.s.setData b data).c.buf b' = t.s.c.buf b' from setBuf_other _ _ he]
    exact h.held b' hb'

theorem Inv.release (h : Inv A D t) (hb : b ∈ t.held)
    (hm : t.modified b = false) (hrun : bufcacheRelease b t.s = .ok ⟨⟩ s') :
    Inv A D { t with s := s', held := t.held.erase b } := by
  obtain ⟨l, hst⟩ := h.steady
  obtain ⟨hlt, hbusy, -⟩ := h.held b hb
  obtain ⟨l', -, hst'⟩ := hst.release (hst.inv.perm.mem_iff.mpr (mem_range.mpr hlt)) hbusy hm
  have hs' : s' = { t.s with c := t.s.c.bufcacheRelease b } :=
    (wp_bufcacheRelease (Q := fun _ s' => s' = { t.s with c := t.s.c.bufcacheRelease b })
      (E := fun _ => True) hbusy rfl).ok hrun
  subst hs'
  refine ⟨h.toLogged, ⟨l', hst'.inv, hst'.area, nofun⟩, h.nodup.erase b, fun b' hb' => ?_, h.crash⟩
  obtain ⟨hne, hb'⟩ := h.nodup.mem_erase_iff.mp hb'
  dsimp only
  rw [show (t.s.c.bufcacheRelease b).buf b' = t.s.c.buf b' from setBuf_other _ _ hne]
  exact h.held b' hb'

/-- The state after the disk write of `log_write(b)`. -/
theorem Inv.logged (h : Inv A D t) (hb : b ∈ t.held) (hlog : A.MayLog (t.s.c.buf b))
    (hlt : t.s.log.lh.n < logsize) (hroom : t.s.log.lh.n + 1 < A.size) {l : List ℕ}
    (hst : Steady A false s' (update t.modified b false) l [])
    (hbufs : ∀ b' ∈ t.held, (s'.c.buf b').busy = (t.s.c.buf b').busy ∧
      (s'.c.buf b').valid = (t.s.c.buf b').valid ∧ (s'.c.buf b').dev = (t.s.c.buf b').dev ∧
      (s'.c.buf b').sector = (t.s.c.buf b').sector)
    (hlog' : s'.log = { t.s.log with lh := t.s.log.lh.enter (t.s.c.buf b).sector })
    (hdisk : s'.disk = update t.s.disk
      (lba rootdev (A.start + t.s.log.lh.slot (t.s.c.buf b).sector + 1)) (t.s.c.buf b).data)
    (hcr : ∀ d, s'.Crash d → t.s.Crash d ∨ d = s'.disk) :
    Inv A D { t with
      s := s'
      modified := update t.modified b false
      logged := t.logged ++ [((t.s.c.buf b).sector, (t.s.c.buf b).data)] } := by
  obtain ⟨hout, hsuper⟩ := hlog
  set sector := (t.s.c.buf b).sector
  set i := t.s.log.lh.slot sector with hi
  have hile : i ≤ t.s.log.lh.n := (t.s.log.lh.slot_spec sector).1
  have hs : sector < 2 ^ 28 := (h.held b hb).2.2.2.2
  have hon : OnDrive rootdev sector := ⟨by decide, hs⟩
  have hhold : A.Holds (A.start + i + 1) := ⟨by omega, by omega⟩
  have hidle : Idle A D s'.disk := by
    constructor
    · rw [hdisk, sec_update_of_ne hhold.onDrive A.holds_start.onDrive (by omega)]
      exact h.idle.head
    · intro a ha
      have hne : a ≠ lba rootdev (A.start + i + 1) := fun he => ha (he ▸ hhold.addr)
      rw [hdisk, update_of_ne hne]
      exact h.idle.same a ha
  refine ⟨?_, ⟨l, hst⟩, h.nodup, ?_, ?_⟩ <;> dsimp only
  · rw [hlog']
    refine ⟨h.at_area, h.size, h.fits.enter hlt hroom hs hout,
      LogHeader.enter_distinct h.distinct, ?_, ?_, ?_, hidle⟩
    · intro j hj
      rw [LogHeader.lt_enter_n] at hj
      rw [hdisk, installed_append]
      by_cases hje : j = i
      · rw [hje, sec_update_self, hi, LogHeader.enter_sector_slot, sec_update_self]
      · have hjn : j < t.s.log.lh.n := hj.resolve_right hje
        have hne := LogHeader.sector_ne_of_ne_slot h.distinct hjn hje
        rw [sec_update_of_ne hhold.onDrive (h.fits.holds hjn).onDrive (by omega),
          LogHeader.enter_sector_of_ne hje,
          sec_update_of_ne hon ⟨by decide, h.fits.lt j hjn⟩ hne]
        exact h.block j hjn
    · intro w hw
      rcases mem_append.mp hw with hw | hw
      · obtain ⟨j, hj, he⟩ := h.cover w hw
        refine ⟨j, LogHeader.lt_enter_n.mpr (.inl hj), ?_⟩
        by_cases hje : j = i
        · rw [hje, hi, LogHeader.enter_sector_slot, ← he, hje]
          exact ((t.s.log.lh.slot_spec sector).2.1 (hi ▸ hje ▸ hj)).symm
        · rw [LogHeader.enter_sector_of_ne hje, he]
      · rw [mem_singleton.mp hw]
        exact ⟨i, LogHeader.lt_enter_n.mpr (.inr rfl), LogHeader.enter_sector_slot⟩
    · rw [installed_append]
      unfold LogArea.Super
      by_cases h1 : sector = 1
      · rw [h1, sec_update_self]
        exact hsuper h1
      · rw [sec_update_of_ne hon ⟨by decide, by decide⟩ (Ne.symm h1)]
        exact h.super
  · intro b' hb'
    obtain ⟨h1, h2, h3, h4⟩ := hbufs b' hb'
    rw [h1, h2, h3, h4]
    exact h.held b' hb'
  · intro d hd
    rcases hcr d hd with hd | rfl
    · exact h.crash d hd
    · exact hidle

theorem wp_logWrite (h : Inv A D t) (hb : b ∈ t.held) (hlog : A.MayLog (t.s.c.buf b)) :
    Wp (logWrite true b)
      (fun _ s' => Inv A D { t with
        s := s'
        modified := update t.modified b false
        logged := t.logged ++ [((t.s.c.buf b).sector, (t.s.c.buf b).data)] })
      (fun s' => ∀ d, s'.Crash d → Idle A D d) t.s := by
  obtain ⟨l, hst⟩ := h.steady
  obtain ⟨hlt, hbusy, hvalid, hdev, hsec⟩ := h.held b hb
  have hbl : b ∈ l := hst.inv.perm.mem_iff.mpr (mem_range.mpr hlt)
  have hat := h.at_area
  unfold logWrite
  rw [wp_bind, wp_get]
  dsimp only
  split_ifs with hbig hout
  · exact h.crash
  · exact h.crash
  · have hn : t.s.log.lh.n < logsize := by omega
    have hroom : t.s.log.lh.n + 1 < A.size := by
      have := h.size
      omega
    set i := t.s.log.lh.slot (t.s.c.buf b).sector
    have hile : i ≤ t.s.log.lh.n := (t.s.log.lh.slot_spec _).1
    have hhold : A.Holds (A.start + i + 1) := ⟨by omega, by omega⟩
    rw [wp_bind, wp_modify, wp_bind, hdev, hat.2]
    refine (Steady.read (hst.congr ?_ ?_) hhold.onDrive nofun (by decide)).mono ?_
      fun s' hs' d hd => h.crash d (hs'.2 d hd)
    · rfl
    · rfl
    rintro lbuf s1 ⟨⟨x, hx⟩, hm, h₁⟩
    have hne : b ≠ lbuf := fun he => by
      have := hx.free
      rw [← he] at this
      exact absurd (this.symm.trans hbusy) Bool.false_ne_true
    have hb1 : s1.c.buf b = t.s.c.buf b := by rw [hx.cache, setBuf_other _ _ hne]; rfl
    have hxbusy : (s1.c.buf lbuf).busy = true := by rw [hx.buf, hx.busy]
    rw [wp_bind, wp_modify, hb1, wp_bind]
    refine (h₁.write hx.mem hxbusy hm _).mono ?_
      fun s' hs' d hd => h.crash d (hx.crash d (hs'.2 d hd))
    rintro ⟨⟩ s2 ⟨h₂, hc, hd, hlog2, hcr⟩
    have hl2 : (s2.c.buf lbuf).busy = true := by rw [hc, setBuf_self]; exact hxbusy
    rw [wp_bind]
    refine wp_bufcacheRelease hl2 ?_
    obtain ⟨l', hl', h3⟩ := h₂.release hx.mem hl2 hm
    rw [erase_cons_head] at h3
    rw [wp_bind, wp_modify, wp_modify]
    have hbuf : ∀ b' ∈ t.held, (s2.c.bufcacheRelease lbuf).buf b' = t.s.c.buf b' := by
      intro b' hb'
      have hne' : b' ≠ lbuf := fun he => by
        have h1 := (h.held b' hb').2.1
        have h2 : (t.s.c.buf lbuf).busy = false := hx.free
        rw [he, h2] at h1
        cases h1
      show (s2.c.setBuf lbuf _).buf b' = _
      rw [setBuf_other _ _ hne', hc, setBuf_other _ _ hne', hx.cache, setBuf_other _ _ hne']
      rfl
    set s4 : LogSys := LogSys.setHeader { s2 with c := s2.c.bufcacheRelease lbuf }
      { s2.log.lh with n := if i = s2.log.lh.n then i + 1 else s2.log.lh.n }
    have hb4 : s4.c.buf b = t.s.c.buf b := hbuf b hb
    have hlog' : s2.log = { t.s.log with lh := t.s.log.lh.setSector i (t.s.c.buf b).sector } :=
      hlog2.trans hx.log_eq
    refine h.logged hb hlog hn hroom (l := l') ?_ ?_ ?_ ?_ ?_
    · have h4 : Steady A false s4 t.modified l' [] := h3.congr rfl rfl
      exact h4.setDirty ((hl' b).mpr hbl) (by rw [hb4]; exact hbusy) (by rw [hb4]; exact hvalid)
        (by rw [hb4]; exact hlog.1)
    · intro b' hb'
      by_cases he : b' = b
      · rw [he]
        unfold LogSys.setDirty LogSys.setBuf
        rw [setBuf_self, hb4]
        exact ⟨rfl, rfl, rfl, rfl⟩
      · rw [show (s4.setDirty b).c.buf b' = s4.c.buf b' from setBuf_other _ _ he,
          show s4.c.buf b' = t.s.c.buf b' from hbuf b' hb']
        exact ⟨rfl, rfl, rfl, rfl⟩
    · have hlog4 : (s4.setDirty b).log = { s2.log with lh := { s2.log.lh with
          n := if i = s2.log.lh.n then i + 1 else s2.log.lh.n } } := rfl
      rw [hlog4, hlog']
      rfl
    · show s2.disk = _
      rw [hd, hx.buf, hx.dev_eq, hx.sector_eq, hx.disk_eq]
      rfl
    · intro d hd'
      rcases hcr d hd' with hd' | rfl
      · exact .inl (hx.crash d hd')
      · exact .inr rfl

theorem inv_step (h : Inv A D t) (hstep : Step A A.MayLog t t') : Inv A D t' := by
  cases hstep with
  | read hs hrun => exact h.read hs hrun
  | modify data hb hout => exact h.modify hb hout data
  | logWrite hb hlog hrun => exact (wp_logWrite h hb hlog).ok hrun
  | release hb hm hrun => exact h.release hb hm hrun

/-- The transaction right after `begin_trans`. -/
def start (s : LogSys) : Trans := ⟨{ s with past := [] }, [], fun _ => false, []⟩

theorem beginTrans_ok (h : beginTrans s = .ok ⟨⟩ s₀) :
    s₀ = { s with log := { s.log with busy := true } } := by
  have hwp : Wp beginTrans (fun _ s' => s' = { s with log := { s.log with busy := true } })
      (fun _ => True) s := by
    unfold beginTrans
    rw [wp_bind, wp_get]
    split_ifs
    · trivial
    · rfl
  exact hwp.ok h

theorem inv_start (h : Ready A s) (hbegin : beginTrans s = .ok ⟨⟩ s₀) :
    Inv A s.disk (start s₀) := by
  obtain rfl := beginTrans_ok hbegin
  obtain ⟨l, hst⟩ := h.steady
  have hidle : Idle A s.disk s.disk := ⟨h.head, fun _ _ => rfl⟩
  have hempty : ∀ {i : ℕ}, ¬ i < s.log.lh.n := by
    rw [h.empty]
    exact Nat.not_lt_zero _
  refine ⟨⟨h.at_area, h.size, ?_, fun i hi => absurd hi hempty, fun i hi => absurd hi hempty, nofun,
    h.super, hidle⟩, ⟨l, hst.congr rfl rfl⟩, nodup_nil, nofun, ?_⟩
  · refine ⟨?_, ?_, fun i hi => absurd hi hempty, fun i hi => absurd hi hempty⟩
    · show s.log.lh.n ≤ logsize
      rw [h.empty]
      exact Nat.zero_le _
    · show s.log.lh.n + 1 ≤ A.size
      rw [h.empty]
      exact A.size_pos
  · intro d hd
    rw [hd.resolve_right not_mem_nil]
    exact hidle

theorem inv_of_run (h : Ready A s) (hbegin : beginTrans s = .ok ⟨⟩ s₀)
    (hrun : ReflTransGen (Step A A.MayLog) (start s₀) t) : Inv A s.disk t := by
  induction hrun with
  | refl => exact inv_start h hbegin
  | tail _ hstep ih => exact inv_step ih hstep

/-! ### Commit -/

/-- The disk once the header has been written. -/
theorem Inv.committed (h : Inv A D t) (hD : A.Super D) (data : Block) :
    Committed A t.s.log.lh (installed t.logged D)
      (update t.s.disk (lba rootdev A.start) (t.s.log.lh.headBlock data)) := by
  have hle := h.fits.le
  unfold logsize at hle
  constructor
  · unfold LogArea.Super
    have hne : 1 ≠ A.start := fun he => A.not_holds_one (he.symm ▸ A.holds_start)
    rw [sec_update_of_ne A.holds_start.onDrive ⟨by decide, by decide⟩ hne]
    exact h.idle.super hD
  · rw [sec_update_self]
    exact LogHeader.read32_headBlock_n (by omega)
  · intro i hi
    rw [sec_update_self]
    refine LogHeader.read32_headBlock_sector h.fits.le (fun j hj => ?_) hi
    have := h.fits.lt j hj
    omega
  · intro i hi
    rw [sec_update_of_ne A.holds_start.onDrive (h.fits.holds hi).onDrive (by omega)]
    exact h.block i hi
  · intro a ha hne
    have hne' : a ≠ lba rootdev A.start := fun he => ha (he ▸ A.holds_start.addr)
    rw [update_of_ne hne', h.idle.same a ha, installed_of_not_logged]
    intro w hw he
    obtain ⟨i, hi, hs⟩ := h.cover w hw
    exact hne i hi (hs ▸ he)

theorem Inv.logged_eq_nil (h : Inv A D t) (hn : t.s.log.lh.n = 0) : t.logged = [] := by
  refine eq_nil_iff_forall_not_mem.mpr fun w hw => ?_
  obtain ⟨i, hi, -⟩ := h.cover w hw
  omega

/-- The first `write_head` of `commit_trans`. -/
theorem Inv.writeHead (h : Inv A D t) (hD : A.Super D) :
    Wp (writeHead true)
      (fun _ s' => (∃ l, Steady A false s' t.modified l []) ∧ s'.log = t.s.log ∧
        Committed A t.s.log.lh (installed t.logged D) s'.disk ∧
        ∀ d, s'.Crash d → Idle A D d ∨ Pending A (installed t.logged D) d)
      (fun s' => ∀ d, s'.Crash d → Idle A D d ∨ Pending A (installed t.logged D) d) t.s := by
  obtain ⟨l, hst⟩ := h.steady
  refine (wp_writeHead (G := fun d => Idle A D d ∨ Pending A (installed t.logged D) d) hst
    h.at_area (fun d hd => .inl (h.crash d hd))
    (fun data => .inr ⟨_, h.fits, h.committed hD data⟩)).mono ?_ fun _ h => h.2
  rintro - s' ⟨hst', hlog, ⟨data, hdisk⟩, hcr⟩
  exact ⟨hst', hlog, hdisk ▸ h.committed hD data, hcr⟩

/-- The rest of `commit_trans`, from a state with the header on disk. -/
theorem Inv.finish (h : Inv A D t) (s1 : LogSys) {G : Disk → Prop}
    (hst : ∃ l, Steady A false s1 t.modified l []) (hlog : s1.log = t.s.log)
    (hcom : Committed A t.s.log.lh (installed t.logged D) s1.disk)
    (hG : ∀ d, Pending A (installed t.logged D) d → G d) (hcr : ∀ d, s1.Crash d → G d) :
    Wp (installAndErase true)
      (fun _ s' => (∃ l, Steady A false s' t.modified l []) ∧
        Idle A (installed t.logged D) s'.disk ∧
        s'.log = { t.s.log with lh := { t.s.log.lh with n := 0 } } ∧ ∀ d, s'.Crash d → G d)
      (fun s' => ∀ d, s'.Crash d → G d) s1 := by
  obtain ⟨l, hst⟩ := hst
  have hat : s1.At A := by
    unfold LogSys.At
    rw [hlog]
    exact h.at_area
  rw [← hlog] at hcom
  have hf : s1.log.lh.Fits A := hlog ▸ h.fits
  refine (wp_installAndErase (G := G) hst hat hf h.super hcom hcr (fun d hd => hG d ⟨_, hf, hd⟩)
    (fun d hd => hG d (hd.pending h.super))).mono ?_ fun _ h => h.2
  rw [hlog]
  exact fun _ _ h => h

theorem wp_commitTrans (h : Inv A D t) (hD : A.Super D) :
    Wp (commitTrans true)
      (fun _ s' => Idle A (installed t.logged D) s'.disk ∧
        ((∀ b, t.modified b = false) → Ready A s') ∧
        ∀ d, s'.Crash d → Idle A D d ∨ Pending A (installed t.logged D) d)
      (fun s' => ∀ d, s'.Crash d → Idle A D d ∨ Pending A (installed t.logged D) d) t.s := by
  have hready : ∀ {s' : LogSys}, (∃ l, Steady A false s' t.modified l []) → s'.log.dev = t.s.log.dev →
      s'.log.start = t.s.log.start → s'.log.size = t.s.log.size → s'.log.lh.n = 0 →
      Idle A (installed t.logged D) s'.disk → (∀ b, t.modified b = false) → Ready A s' := by
    intro s' hst hdev hstart hsize hn hidle hm
    rw [show t.modified = fun _ => false from funext hm] at hst
    exact ⟨hst, ⟨hdev.trans h.at_area.1, hstart.trans h.at_area.2⟩, hsize.trans h.size, hn,
      hidle.head, hidle.super h.super⟩
  unfold commitTrans
  rw [wp_bind, wp_get]
  split_ifs with hn
  · rw [wp_bind]
    refine (h.writeHead hD).mono ?_ fun _ h => h
    rintro - s1 ⟨hst, hlog, hcom, hcr⟩
    rw [wp_bind]
    refine (h.finish s1 hst hlog hcom (fun d => .inr) hcr).mono ?_ fun _ h => h
    rintro - s2 ⟨⟨l, hst2⟩, hidle, hlog2, hcr2⟩
    rw [wp_modify]
    refine ⟨hidle, hready ⟨l, hst2.congr rfl rfl⟩ ?_ ?_ ?_ ?_ hidle, hcr2⟩
    all_goals dsimp only; rw [hlog2]
  · have hn0 : t.s.log.lh.n = 0 := by omega
    obtain ⟨l, hst⟩ := h.steady
    have hidle : Idle A (installed t.logged D) t.s.disk := by
      rw [h.logged_eq_nil hn0]
      exact h.idle
    dsimp only
    rw [wp_modify]
    exact ⟨hidle, hready ⟨l, hst.congr rfl rfl⟩ rfl rfl rfl hn0 hidle, fun d hd => .inl (h.crash d hd)⟩

/-- However often recovery is interrupted on this disk, it gets through in the end and
leaves a disk with `P`. -/
def Recovers (d : Disk) (P : Disk → Prop) : Prop :=
  ∀ d', ReflTransGen RecoveryCrash d d' → ∃ s', logInit true (boot d') = .ok ⟨⟩ s' ∧ P s'.disk

theorem recovers_of_pending {T : Disk} (hT : A.Super T) (h : Pending A T d) :
    Recovers d (Idle A T) := by
  intro d' hcr
  obtain ⟨s', hrun, -, hidle, -⟩ := logInit_recovers hT (pending_of_crashes hT h hcr)
  exact ⟨s', hrun, hidle⟩

theorem Recovers.imp {P Q : Disk → Prop} (h : Recovers d P) (hPQ : ∀ d, P d → Q d) :
    Recovers d Q := by
  intro d' hcr
  obtain ⟨s', hrun, hP⟩ := h d' hcr
  exact ⟨s', hrun, hPQ _ hP⟩

theorem Inv.pending_of_crash (h : Inv A D t) (hD : A.Super D) (hcr : t.Crash A d) :
    Idle A D d ∨ Pending A (installed t.logged D) d := by
  cases hcr with
  | between hd => exact .inl (h.crash d hd)
  | inLogWrite hb hlog hd =>
    exact .inl (of_endState (P := fun s' => ∀ d, s'.Crash d → Idle A D d) (wp_logWrite h hb hlog)
      (fun _ _ h' => h'.crash) (fun _ h' => h') d hd)
  | inCommit hd =>
    exact of_endState (P := fun s' => ∀ d, s'.Crash d →
        Idle A D d ∨ Pending A (installed t.logged D) d) (wp_commitTrans h hD)
      (fun _ _ h' => h'.2.2) (fun _ h' => h') d hd

/-- **Transactions are atomic.**  After a crash at any moment and any number of
interrupted recoveries, the sectors outside the log are those from before the
transaction, or those with everything that was logged; the latter once `commit_trans`
has written the header.  A transaction that returns is in place, and the system is
ready for the next one. -/
theorem log_crash_atomic {s s₀ : LogSys} (h : Ready A s) (hbegin : beginTrans s = .ok ⟨⟩ s₀)
    (hrun : ReflTransGen (Step A A.MayLog) (start s₀) t) :
    (∀ d, t.Crash A d →
      Recovers d fun d' => Idle A s.disk d' ∨ Idle A (installed t.logged s.disk) d') ∧
    (∀ s₁ d, writeHead true t.s = .ok ⟨⟩ s₁ →
      (endState (installAndErase true { s₁ with past := [] })).Crash d →
      Recovers d (Idle A (installed t.logged s.disk))) ∧
    ∀ s', commitTrans true t.s = .ok ⟨⟩ s' → Idle A (installed t.logged s.disk) s'.disk ∧
      ((∀ b, t.modified b = false) → Ready A s') := by
  have hinv := inv_of_run h hbegin hrun
  refine ⟨fun d hd => ?_, fun s₁ d hhead hd => ?_, fun s' hs' => ?_⟩
  · rcases hinv.pending_of_crash h.super hd with hidle | hp
    · exact (recovers_of_pending h.super (hidle.pending h.super)).imp fun _ => .inl
    · exact (recovers_of_pending hinv.super hp).imp fun _ => .inr
  · obtain ⟨⟨l, hst⟩, hlog, hcom, -⟩ := (hinv.writeHead h.super).ok hhead
    refine recovers_of_pending hinv.super ?_
    have hwp := hinv.finish { s₁ with past := [] }
      (G := Pending A (installed t.logged s.disk)) ⟨l, hst.congr rfl rfl⟩ hlog hcom
      (fun _ h => h) fun d hd => by
        rw [hd.resolve_right not_mem_nil]
        exact ⟨_, hinv.fits, hcom⟩
    exact of_endState (P := fun s' => ∀ d, s'.Crash d → Pending A (installed t.logged s.disk) d)
      hwp (fun _ _ h' => h'.2.2.2) (fun _ h' => h') d hd
  · have := (wp_commitTrans hinv h.super).ok hs'
    exact ⟨this.1, this.2.1⟩

/-! ### Histories -/

/-- The life of a disk: transactions that return (`true` in the history), and transactions
that a crash interrupts (`false`), each followed by recoveries until one gets through. -/
inductive Life (A : LogArea) (s : LogSys) : LogSys → List (Bool × List (ℕ × Block)) → Prop
  | boot : Life A s s []
  | commit {s₁ s₀ s' : LogSys} {t : Trans} {hist : List (Bool × List (ℕ × Block))}
      (h : Life A s s₁ hist) (hbegin : beginTrans s₁ = .ok ⟨⟩ s₀)
      (hrun : ReflTransGen (Step A A.MayLog) (start s₀) t) (hm : ∀ b, t.modified b = false)
      (hcommit : commitTrans true t.s = .ok ⟨⟩ s') : Life A s s' (hist ++ [(true, t.logged)])
  | crash {s₁ s₀ s' : LogSys} {t : Trans} {hist : List (Bool × List (ℕ × Block))} {d d' : Disk}
      (h : Life A s s₁ hist) (hbegin : beginTrans s₁ = .ok ⟨⟩ s₀)
      (hrun : ReflTransGen (Step A A.MayLog) (start s₀) t) (hcr : t.Crash A d)
      (hagain : ReflTransGen RecoveryCrash d d') (hinit : logInit true (boot d') = .ok ⟨⟩ s') :
      Life A s s' (hist ++ [(false, t.logged)])

/-- The writes that remain of a history: a transaction that was interrupted is kept whole
or not at all, one that returned is kept. -/
inductive Kept : List (Bool × List (ℕ × Block)) → List (ℕ × Block) → Prop
  | nil : Kept [] []
  | keep {hist ws} (h : Kept hist ws) (returned : Bool) (logged : List (ℕ × Block)) :
      Kept (hist ++ [(returned, logged)]) (ws ++ logged)
  | drop {hist ws} (h : Kept hist ws) (logged : List (ℕ × Block)) :
      Kept (hist ++ [(false, logged)]) ws

theorem installed_congr {D D' : Disk} {a : ℕ} (logged : List (ℕ × Block)) (h : D a = D' a) :
    installed logged D a = installed logged D' a := by
  induction logged generalizing D D' with
  | nil => exact h
  | cons w logged ih =>
    refine ih ?_
    simp only [update_apply, h]

theorem idle_after {D₀ : Disk} {ws logged : List (ℕ × Block)} (h : Idle A (installed ws D₀) D)
    (h' : Idle A (installed logged D) d) : Idle A (installed (ws ++ logged) D₀) d where
  head := h'.head
  same a ha := by
    rw [h'.same a ha, installed_congr logged (h.same a ha), installed, installed, installed,
      foldl_append]

theorem logInit_ok {T d' : Disk} (hT : A.Super T) (hp : Pending A T d)
    (hagain : ReflTransGen RecoveryCrash d d') (hinit : logInit true (boot d') = .ok ⟨⟩ s') :
    Ready A s' ∧ Idle A T s'.disk := by
  obtain ⟨s, hrun, hready, hidle, -⟩ := logInit_recovers hT (pending_of_crashes hT hp hagain)
  obtain rfl : s' = s := by
    injection hinit.symm.trans hrun
  exact ⟨hready, hidle⟩

/-- **Durability.**  Over any life of the disk the log is ready for the next transaction,
and outside the log the disk holds the writes of the transactions in their order: of all
that returned, and of those that a crash interrupted either everything or nothing. -/
theorem log_history (h : Ready A s) (hlife : Life A s s' hist) :
    Ready A s' ∧ ∃ ws, Kept hist ws ∧ Idle A (installed ws s.disk) s'.disk := by
  induction hlife with
  | boot => exact ⟨h, [], .nil, h.head, fun _ _ => rfl⟩
  | commit _ hbegin hrun hm hcommit ih =>
    obtain ⟨hready, ws, hkept, hidle⟩ := ih
    obtain ⟨hidle', hready', -⟩ :=
      (wp_commitTrans (inv_of_run hready hbegin hrun) hready.super).ok hcommit
    exact ⟨hready' hm, _, hkept.keep _ _, idle_after hidle hidle'⟩
  | crash _ hbegin hrun hcr hagain hinit ih =>
    obtain ⟨hready, ws, hkept, hidle⟩ := ih
    have hinv := inv_of_run hready hbegin hrun
    rcases hinv.pending_of_crash hready.super hcr with hlost | hp
    · obtain ⟨hready', hidle'⟩ := logInit_ok hready.super (hlost.pending hready.super) hagain hinit
      exact ⟨hready', ws, hkept.drop _, hidle'.head,
        fun a ha => (hidle'.same a ha).trans (hidle.same a ha)⟩
    · obtain ⟨hready', hidle'⟩ := logInit_ok hinv.super hp hagain hinit
      exact ⟨hready', _, hkept.keep _ _, idle_after hidle hidle'⟩

/-! ### Examples -/

/-- A transaction that changes one sector, step by step. -/
def logOne (sector : ℕ) (data : Block) : LogM PUnit := do
  let b ← bufcacheRead true rootdev sector
  modify fun s => s.setData b data
  logWrite true b
  bufcacheRelease b

theorem run_logOne {l : List ℕ} {may : Buf → Prop}
    (hst : Steady A false s (fun _ => false) l []) (hs : sector < 2 ^ 28)
    (hout : ¬ A.Holds sector) (hmay : ∀ x : Buf, x.sector = sector → x.data = data → may x)
    (h : logOne sector data s = .ok ⟨⟩ s') :
    ∃ t, ReflTransGen (Step A may) ⟨s, [], fun _ => false, []⟩ t ∧ t.s = s' ∧
      t.logged = [(sector, data)] := by
  obtain ⟨b, s1, hread, h1⟩ := bind_eq_ok.mp h
  obtain ⟨⟨⟩, s2, hmod, h₂⟩ := bind_eq_ok.mp h1
  obtain ⟨⟨⟩, s3, hlog, hrel⟩ := bind_eq_ok.mp h₂
  have hs2 : s2 = s1.setData b data := by
    injection hmod with _ h2
    exact h2.symm
  subst hs2
  obtain ⟨⟨x, hx⟩, -⟩ := (hst.read ⟨by decide, hs⟩ nofun (by decide)).ok hread
  have hsec : (s1.c.buf b).sector = sector := by rw [hx.buf, hx.sector_eq]
  have hbuf : (s1.setData b data).c.buf b = { s1.c.buf b with data := data } := setBuf_self _ _ _
  have hdata : ((s1.setData b data).c.buf b).sector = sector ∧
      ((s1.setData b data).c.buf b).data = data := by
    rw [hbuf]
    exact ⟨hsec, rfl⟩
  refine ⟨_, (((ReflTransGen.single (.read hs hread)).tail
    (.modify data mem_cons_self (by rw [hsec]; exact hout))).tail
    (.logWrite mem_cons_self (hmay _ hdata.1 hdata.2) hlog)).tail
    (.release mem_cons_self (update_self ..) hrel), rfl, ?_⟩
  dsimp only
  rw [hdata.1, hdata.2]
  rfl

def oneTrans (sector : ℕ) (data : Block) : LogM PUnit := do
  beginTrans
  logOne sector data
  commitTrans true

theorem oneTrans_run {may : Buf → Prop}
    (hready : Ready A s) (hpast : s.past = []) (hs : sector < 2 ^ 28) (hout : ¬ A.Holds sector)
    (hmay : ∀ x : Buf, x.sector = sector → x.data = data → may x)
    (h : oneTrans sector data s = .ok ⟨⟩ s') :
    ∃ s₀ t, beginTrans s = .ok ⟨⟩ s₀ ∧
      ReflTransGen (Step A may) (start s₀) t ∧ t.logged = [(sector, data)] ∧
      commitTrans true t.s = .ok ⟨⟩ s' := by
  obtain ⟨⟨⟩, s₀, hbegin, h1⟩ := bind_eq_ok.mp h
  obtain ⟨⟨⟩, s1, hone, hcommit⟩ := bind_eq_ok.mp h1
  have hs0 : s₀ = (start s₀).s := by
    rw [beginTrans_ok hbegin, start, hpast]
  obtain ⟨l, hst⟩ := (inv_start hready hbegin).steady
  rw [hs0] at hone
  obtain ⟨t, hrun, rfl, hlogged⟩ := run_logOne hst hs hout hmay hone
  exact ⟨s₀, t, hbegin, hrun, hlogged, hcommit⟩

/-- The transaction, a restart and a recovery; byte 4 of sector 5 is returned. -/
def oneTransRestart (sector : ℕ) (data : Block) : LogM UInt8 := do
  oneTrans sector data
  modify fun s => boot s.disk
  logInit true
  let s ← get
  pure ((s.disk.sec 5).1 4)

def value {α : Type} : EStateM.Result Stop LogSys α → Option α
  | .ok a _ => some a
  | .error _ _ => none

theorem oneTransRestart_run {v : UInt8} (h : value (oneTransRestart sector data s) = some v) :
    ∃ s1 s2, oneTrans sector data s = .ok ⟨⟩ s1 ∧
      logInit true (boot s1.disk) = .ok ⟨⟩ s2 ∧ (s2.disk.sec 5).1 4 = v := by
  cases hrun : oneTransRestart sector data s with
  | error e s' =>
    rw [hrun] at h
    cases h
  | ok v' s' =>
    rw [hrun] at h
    obtain ⟨⟨⟩, s1, h1, hrun1⟩ := bind_eq_ok.mp hrun
    obtain ⟨⟨⟩, s1', hboot, hrun2⟩ := bind_eq_ok.mp hrun1
    obtain ⟨⟨⟩, s2, h2, hrun3⟩ := bind_eq_ok.mp hrun2
    obtain rfl : boot s1.disk = s1' := by
      injection hboot
    refine ⟨s1, s2, h1, h2, ?_⟩
    obtain rfl : v' = v := Option.some.inj h
    injection hrun3

/-- The log area of an image of 1024 sectors with 10 sectors of log. -/
def sampleArea : LogArea := ⟨1014, 10, by decide, by decide, by decide⟩

def superblock (size nblocks nlog : ℕ) : Block :=
  ((Block.write32 default 0 size).write32 4 nblocks).write32 12 nlog

/-- Such an image, where sector 0 looks like a header with one entry, for sector 5. -/
def sampleStart : LogSys where
  c := bufcacheInit
  disk := update
    (update (fun _ => default) (lba rootdev 1) (superblock 1024 985 10))
    (lba rootdev 0) ((Block.write32 default 0 1).write32 4 5)
  log := ⟨1014, 10, false, rootdev, ⟨0, fun _ => 0⟩⟩
  past := []

theorem ready_sampleStart : Ready sampleArea sampleStart where
  steady := ⟨_, cacheInv_bufcacheInit _, fun _ _ _ _ => ⟨rfl, rfl⟩, nofun⟩
  at_area := ⟨rfl, rfl⟩
  size := rfl
  empty := rfl
  head := by decide +kernel
  super := by
    unfold LogArea.Super
    decide +kernel

theorem log_crash_atomic_oneSector :
    ∃ s₀ s₁, ∃ t : Trans, beginTrans sampleStart = .ok ⟨⟩ s₀ ∧
      t.logged = [(5, superblock 0 7 0)] ∧
      commitTrans true t.s = .ok ⟨⟩ s₁ ∧
      Idle sampleArea (installed t.logged sampleStart.disk) s₁.disk ∧
      Recovers s₁.disk fun d' => Idle sampleArea sampleStart.disk d' ∨
        Idle sampleArea (installed t.logged sampleStart.disk) d' := by
  obtain ⟨s₁, -, h₁, -, -⟩ := oneTransRestart_run
    (by decide +kernel : value (oneTransRestart 5 (superblock 0 7 0) sampleStart) = some 7)
  have hout : ¬ sampleArea.Holds 5 := fun h => absurd h.1 (by decide)
  have hmay : ∀ x : Buf, x.sector = 5 → x.data = superblock 0 7 0 → sampleArea.MayLog x :=
    fun x hx _ => ⟨hx ▸ hout, fun h1 => by omega⟩
  obtain ⟨s₀, t, hbegin, hrun, hlogged, hcommit⟩ :=
    oneTrans_run ready_sampleStart rfl (by decide) hout hmay h₁
  have h := log_crash_atomic ready_sampleStart hbegin hrun
  refine ⟨s₀, s₁, t, hbegin, hlogged, hcommit, (h.2.2 s₁ hcommit).1, h.1 _ (.inCommit ?_)⟩
  rw [hcommit]
  exact .inl rfl

theorem log_history_oneSector :
    ∃ s₂, Life sampleArea sampleStart s₂ [(false, [(5, superblock 0 7 0)])] ∧
      Ready sampleArea s₂ ∧ ∃ ws, Kept [(false, [(5, superblock 0 7 0)])] ws ∧
        Idle sampleArea (installed ws sampleStart.disk) s₂.disk := by
  obtain ⟨s₁, s₂, h₁, h₂, -⟩ := oneTransRestart_run
    (by decide +kernel : value (oneTransRestart 5 (superblock 0 7 0) sampleStart) = some 7)
  have hout : ¬ sampleArea.Holds 5 := fun h => absurd h.1 (by decide)
  obtain ⟨s₀, t, hbegin, hrun, hlogged, hcommit⟩ := oneTrans_run ready_sampleStart rfl (by decide)
    hout (fun x hx _ => (⟨hx ▸ hout, fun h1 => by omega⟩ : sampleArea.MayLog x)) h₁
  have hlife := (Life.boot (A := sampleArea)).crash hbegin hrun
    (.inCommit (by rw [hcommit]; exact .inl rfl)) .refl h₂
  rw [hlogged] at hlife
  exact ⟨s₂, hlife, log_history ready_sampleStart hlife⟩

/-- If a transaction logs a superblock that points elsewhere, the next recovery takes
another part of the disk for the log: here it overwrites sector 5, which was not
logged. -/
theorem log_superblock_breaks :
    ∃ s₀ s₁ s₂, ∃ t : Trans, Ready sampleArea sampleStart ∧
      beginTrans sampleStart = .ok ⟨⟩ s₀ ∧
      ReflTransGen (Step sampleArea fun x => ¬ sampleArea.Holds x.sector) (start s₀) t ∧
      commitTrans true t.s = .ok ⟨⟩ s₁ ∧ logInit true (boot s₁.disk) = .ok ⟨⟩ s₂ ∧
      (∀ w ∈ t.logged, w.1 ≠ 5) ∧ ¬ sampleArea.Holds 5 ∧
      s₂.disk.sec 5 ≠ sampleStart.disk.sec 5 := by
  obtain ⟨s₁, s₂, h₁, h₂, hbyte⟩ := oneTransRestart_run
    (by decide +kernel : value (oneTransRestart 1 (superblock 0 7 0) sampleStart) = some 7)
  have hout : ¬ sampleArea.Holds 1 := sampleArea.not_holds_one
  have hmay : ∀ x : Buf, x.sector = 1 → x.data = superblock 0 7 0 →
      ¬ sampleArea.Holds x.sector := fun x hx _ => hx ▸ hout
  obtain ⟨s₀, t, hbegin, hrun, hlogged, hcommit⟩ :=
    oneTrans_run ready_sampleStart rfl (by decide) hout hmay h₁
  refine ⟨s₀, s₁, s₂, t, ready_sampleStart, hbegin, hrun, hcommit, h₂, ?_, ?_, ?_⟩
  · rw [hlogged]
    simp
  · exact fun h => absurd h.1 (by decide)
  · intro he
    rw [he] at hbyte
    revert hbyte
    decide +kernel

end Trans

end Mcertikos
