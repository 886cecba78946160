/-
The flags of the buffers.

Nothing is assumed about the contents of the disk here: the header and the blocks of the
log, and the sector numbers that the file system reads from its blocks, may be anything.

* `Flags` — every buffer is unused or holds a sector of the root drive, no two hold the
  same one, and dirty buffers hold sectors in a given set;
* `flags_logWrite`, `flags_commitTrans`, `flags_logInit` — the log functions give back every
  buffer they take; dirty buffers are those of the transaction, and none after it.
-/
import Mcertikos.Fs.Log

namespace Mcertikos

open Function Bcache Hoare Ring

/-- A buffer is unused, or has a sector of the root drive. -/
structure BufFlags (D : ℕ → Prop) (x : Buf) : Prop where
  drive : x.dev = noDev ∨ x.dev = rootdev
  unused : x.dev = noDev → x.busy = false ∧ x.dirty = false
  dirty : x.dirty = true → D x.sector

/-- The state of the flags: `D` has the sectors of all dirty buffers, and `h` tells which
buffers are busy. -/
structure Flags (D : ℕ → Prop) (h : ℕ → Bool) (s : LogSys) (l : List ℕ) : Prop where
  ring : IsRing s.c.links nbuf l
  perm : l.Perm (List.range nbuf)
  each : ∀ b ∈ l, BufFlags D (s.c.buf b)
  unique : ∀ b ∈ l, ∀ b' ∈ l, (s.c.buf b).dev = rootdev → (s.c.buf b').dev = rootdev →
    (s.c.buf b).sector = (s.c.buf b').sector → b = b'
  busy : ∀ b, (s.c.buf b).busy = h b
  listed : ∀ b, h b = true → b ∈ l

/-- The flags, for some order of the buffers. -/
def HasFlags (D : ℕ → Prop) (h : ℕ → Bool) (s : LogSys) : Prop := ∃ l, Flags D h s l

variable {D : ℕ → Prop} {h : ℕ → Bool} {s : LogSys} {l : List ℕ}

theorem Flags.length_eq (hf : Flags D h s l) : l.length = nbuf := by
  rw [hf.perm.length_eq, List.length_range]

theorem Flags.mono {D' : ℕ → Prop} (hf : Flags D h s l) (hD : ∀ x, D x → D' x) : Flags D' h s l :=
  { hf with each := fun b hb => { hf.each b hb with dirty := hD _ ∘ (hf.each b hb).dirty } }

/-- The flags do not depend on the disk and the log. -/
theorem Flags.congr {s' : LogSys} (hf : Flags D h s l) (hc : s'.c = s.c) : Flags D h s' l := by
  obtain ⟨h1, h2, h3, h4, h5, h6⟩ := hf
  rw [← hc] at h1 h3 h4 h5
  exact ⟨h1, h2, h3, h4, h5, h6⟩

variable {b : ℕ}

/-- A buffer gets a sector of the root drive that no other buffer has. -/
theorem Flags.put (hf : Flags D h s l) (hb : b ∈ l) (x : Buf) (s' : LogSys)
    (hc : s'.c = s.c.setBuf b x) (hdev : x.dev = rootdev) (hdirty : x.dirty = true → D x.sector)
    (hnew : ∀ i ∈ l, i ≠ b → (s.c.buf i).dev = rootdev → (s.c.buf i).sector ≠ x.sector) :
    Flags D (update h b x.busy) s' l := by
  have hself : s'.c.buf b = x := by rw [hc, setBuf_self]
  have hother : ∀ i, i ≠ b → s'.c.buf i = s.c.buf i := fun i hi => by rw [hc, setBuf_other _ _ hi]
  constructor
  · rw [hc]
    exact hf.ring
  · exact hf.perm
  · rw [hc]
    exact forall_setBuf (P := fun _ => BufFlags D)
      ⟨.inr hdev, fun hd => (nomatch hd.symm.trans hdev), hdirty⟩ fun i hi _ => hf.each i hi
  · intro i hi j hj hdi hdj he
    by_cases hib : i = b
    · by_cases hjb : j = b
      · rw [hib, hjb]
      · rw [hother j hjb] at hdj he
        rw [hib, hself] at he
        exact absurd he.symm (hnew j hj hjb hdj)
    · rw [hother i hib] at hdi he
      by_cases hjb : j = b
      · rw [hjb, hself] at he
        exact absurd he (hnew i hi hib hdi)
      · rw [hother j hjb] at hdj he
        exact hf.unique i hi j hj hdi hdj he
  · intro i
    by_cases hne : i = b
    · rw [hne, hself, update_self]
    · rw [hother i hne, update_of_ne hne]
      exact hf.busy i
  · intro i hi
    by_cases hne : i = b
    · rw [hne]
      exact hb
    · rw [update_of_ne hne] at hi
      exact hf.listed i hi

/-- Changing a buffer of the root drive, but not its sector. -/
theorem Flags.setBuf (hf : Flags D h s l) (hb : b ∈ l) (x : Buf) (s' : LogSys)
    (hc : s'.c = s.c.setBuf b x) (hdrive : (s.c.buf b).dev = rootdev) (hdev : x.dev = rootdev)
    (hsec : x.sector = (s.c.buf b).sector) (hdirty : x.dirty = true → D x.sector) :
    Flags D (update h b x.busy) s' l :=
  hf.put hb x s' hc hdev hdirty fun i hi hne hd he =>
    hne (hf.unique i hi b hb hd hdrive (he.trans hsec))

/-- The sector of a busy buffer is one of the root drive. -/
theorem Flags.drive_of_busy (hf : Flags D h s l) (hb : h b = true) : (s.c.buf b).dev = rootdev := by
  have hx := hf.each b (hf.listed b hb)
  refine hx.drive.resolve_left fun hd => ?_
  have := (hx.unused hd).1
  rw [hf.busy b, hb] at this
  cases this

/-- Changing a busy buffer that stays busy. -/
theorem Flags.change (hf : Flags D h s l) (hb : h b = true) (x : Buf) (s' : LogSys)
    (hc : s'.c = s.c.setBuf b x) (hdev : x.dev = (s.c.buf b).dev)
    (hsec : x.sector = (s.c.buf b).sector) (hbusy : x.busy = (s.c.buf b).busy)
    (hdirty : x.dirty = true → D (s.c.buf b).sector) : Flags D h s' l := by
  have hdrive := hf.drive_of_busy hb
  have hset := hf.setBuf (hf.listed b hb) x s' hc hdrive (hdev.trans hdrive) hsec (hsec ▸ hdirty)
  rwa [hbusy, hf.busy b, update_eq_self] at hset

/-! ### The cache functions -/

/-- What `bufcache_read` does: buffer `b`, which was free, is now `x`, busy. -/
structure TakeBuf (D : ℕ → Prop) (h : ℕ → Bool) (s s' : LogSys) (sector b : ℕ) : Prop where
  free : h b = false
  flags : HasFlags D (update h b true) s'
  other : ∀ i, i ≠ b → s'.c.buf i = s.c.buf i
  drive : (s'.c.buf b).dev = rootdev
  sector_eq : (s'.c.buf b).sector = sector
  log_eq : s'.log = s.log

theorem flags_fill (s1 : LogSys) {sector : ℕ} {x : Buf} (hfree : h b = false)
    (hf : Flags D (update h b true) s1 l) (hc : s1.c = s.c.setBuf b x)
    (hdev : x.dev = rootdev) (hsec : x.sector = sector) (hbusy : x.busy = true)
    (hlog : s1.log = s.log) :
    Wp (do if x.valid = false then ideRequest true b
           pure b)
      (fun b s' => TakeBuf D h s s' sector b) (fun _ => True) s1 := by
  have hself : s1.c.buf b = x := by rw [hc, setBuf_self]
  have hb : b ∈ l := hf.listed b (update_self ..)
  have hother : ∀ i, i ≠ b → s1.c.buf i = s.c.buf i := fun i hi => by rw [hc, setBuf_other _ _ hi]
  cases hv : x.valid with
  | true =>
    exact ⟨hfree, ⟨l, hf⟩, hother, by rw [hself, hdev], by rw [hself, hsec], hlog⟩
  | false =>
    rw [if_pos rfl, wp_bind]
    unfold Wp ideRequest
    cases hide : ideRw true s1.c s1.disk b with
    | none => trivial
    | some p =>
      obtain ⟨c', disk'⟩ := p
      -- the request changes data and the flags other than `B_BUSY`
      have hkeep : ∃ y : Buf, c' = s1.c.setBuf b y ∧ y.dev = x.dev ∧ y.sector = x.sector ∧
          y.busy = x.busy ∧ (y.dirty = true → x.dirty = true) := by
        cases hd : (s1.c.buf b).dirty with
        | true =>
          refine ⟨_, (ideRw_of_dirty hd hide).1, ?_⟩
          rw [hself]
          exact ⟨rfl, rfl, rfl, nofun⟩
        | false =>
          refine ⟨_, (ideRw_of_clean hd hide).1, ?_⟩
          rw [hself]
          exact ⟨rfl, rfl, rfl, fun hy => hy⟩
      obtain ⟨y, hc', hydev, hysec, hybusy, hydirty⟩ := hkeep
      let s2 : LogSys := { s1 with c := c', disk := disk', past := s1.disk :: s1.past }
      have hflags := hf.setBuf hb y s2 hc' (by rw [hself, hdev]) (hydev.trans hdev)
        (by rw [hself, hysec]) fun hy => by
          rw [hysec, ← hself]
          exact (hf.each b hb).dirty (by rw [hself]; exact hydirty hy)
      rw [update_idem, hybusy, hbusy] at hflags
      refine ⟨hfree, ⟨l, hflags⟩, fun i hi => ?_, ?_, ?_, hlog⟩
      · show c'.buf i = _
        rw [hc', setBuf_other _ _ hi, hother i hi]
      · show (c'.buf b).dev = _
        rw [hc', setBuf_self, hydev, hdev]
      · show (c'.buf b).sector = _
        rw [hc', setBuf_self, hysec, hsec]

theorem flags_bufcacheRead (hf : HasFlags D h s) (sector : ℕ) :
    Wp (bufcacheRead true rootdev sector) (fun b s' => TakeBuf D h s s' sector b)
      (fun _ => True) s := by
  obtain ⟨l, hf⟩ := hf
  unfold bufcacheRead
  rw [wp_bind, wp_get]
  rcases bufcacheGet_cases hf.ring hf.length_eq rootdev sector with
    ⟨b, hb, hd, hs, ⟨hfree, he⟩ | ⟨hbusy, he⟩⟩ | ⟨hnew, ⟨b, hb, hfree, hclean, he⟩ | ⟨hall, he⟩⟩
  · rw [he]
    dsimp only
    rw [wp_bind, wp_modify, setBuf_self]
    refine flags_fill (l := l) (x := { s.c.buf b with busy := true }) _
      ((hf.busy b).symm.trans hfree) ?_ rfl hd hs rfl rfl
    exact hf.setBuf hb { s.c.buf b with busy := true } _ rfl hd hd rfl (hf.each b hb).dirty
  · rw [he]
    trivial
  · rw [he]
    dsimp only
    rw [wp_bind, wp_modify, setBuf_self]
    refine flags_fill (l := l) (x := ⟨true, false, false, rootdev, sector, (s.c.buf b).data⟩) _
      ((hf.busy b).symm.trans hfree) ?_ rfl rfl rfl rfl rfl
    exact hf.put hb ⟨true, false, false, rootdev, sector, (s.c.buf b).data⟩ _ rfl rfl nofun
      fun i hi _ hdi hsi => hnew i hi ⟨hdi, hsi⟩
  · rw [he]
    trivial

/-- New contents for a busy buffer. -/
theorem HasFlags.setData (hf : HasFlags D h s) (hb : h b = true) (data : Block) :
    HasFlags D h (s.setData b data) :=
  hf.imp fun _ hl => hl.change hb { s.c.buf b with data := data } _ rfl rfl rfl rfl
    (hl.each b (hl.listed b hb)).dirty

/-- A write makes the buffer clean. -/
theorem flags_bufcacheWrite (hf : HasFlags D h s) {sector : ℕ} (hb : h b = true)
    (hsec : (s.c.buf b).sector = sector) :
    Wp (bufcacheWrite true b)
      (fun _ s' => HasFlags (fun x => D x ∧ x ≠ sector) h s' ∧ s'.log = s.log ∧
        ∀ i, i ≠ b → s'.c.buf i = s.c.buf i)
      (fun _ => True) s := by
  obtain ⟨l, hf⟩ := hf
  refine wp_bufcacheWrite (by rw [hf.busy b, hb]) ⟨⟨l, ?_⟩, rfl, fun i hi => setBuf_other _ _ hi⟩
    fun _ _ _ => trivial
  have hclean := hf.change hb { s.c.buf b with valid := true, dirty := false }
    { s with
      c := s.c.setBuf b { s.c.buf b with valid := true, dirty := false }
      disk := update s.disk (lba (s.c.buf b).dev (s.c.buf b).sector) (s.c.buf b).data
      past := s.disk :: s.past } rfl rfl rfl rfl nofun
  refine { hclean with each := fun i hi => { hclean.each i hi with
    dirty := fun hd => ⟨(hclean.each i hi).dirty hd, fun he => ?_⟩ } }
  -- another dirty buffer has another sector
  by_cases hib : i = b
  · rw [hib] at hd
    simp at hd
  · dsimp only at hd he
    rw [setBuf_other _ _ hib] at hd he
    have hdi : (s.c.buf i).dev = rootdev := by
      exact (hf.each i hi).drive.resolve_left fun hn =>
        (nomatch hd.symm.trans ((hf.each i hi).unused hn).2)
    exact hib (hf.unique i hi b (hf.listed b hb) hdi (hf.drive_of_busy hb) (he.trans hsec.symm))

theorem flags_bufcacheRelease (hf : HasFlags D h s) (hb : h b = true) :
    Wp (bufcacheRelease b)
      (fun _ s' => HasFlags D (update h b false) s' ∧ s'.log = s.log ∧
        ∀ i, i ≠ b → s'.c.buf i = s.c.buf i)
      (fun _ => True) s := by
  obtain ⟨l, hf⟩ := hf
  have hmem := hf.listed b hb
  have hdrive := hf.drive_of_busy hb
  refine wp_bufcacheRelease (by rw [hf.busy b, hb]) ⟨?_, rfl, fun i hi => setBuf_other _ _ hi⟩
  have hset := hf.setBuf hmem { s.c.buf b with busy := false }
    { s with c := s.c.setBuf b { s.c.buf b with busy := false } } rfl hdrive hdrive rfl
    (hf.each b hmem).dirty
  obtain ⟨l1, l2, rfl⟩ := List.append_of_mem hmem
  have hperm : (b :: (l1 ++ l2)).Perm (l1 ++ b :: l2) := List.perm_middle.symm
  have hring : IsRing (s.c.bufcacheRelease b).links nbuf (b :: (l1 ++ l2)) :=
    ring_bufcacheRelease hf.ring
  exact ⟨_, hring, hperm.trans hset.perm, fun i hi => hset.each i (hperm.mem_iff.mp hi),
    fun i hi j hj => hset.unique i (hperm.mem_iff.mp hi) j (hperm.mem_iff.mp hj), hset.busy,
    fun i hi => hperm.mem_iff.mpr (hset.listed i hi)⟩

/-! ### The log functions -/

/-- The sectors of the header. -/
def LogHeader.Has (lh : LogHeader) (x : ℕ) : Prop := ∃ i < lh.n, lh.sector i = x

theorem HasFlags.congr (hf : HasFlags D h s) (s' : LogSys) (hc : s'.c = s.c) : HasFlags D h s' :=
  hf.imp fun _ hl => hl.congr hc

theorem HasFlags.mono {D' : ℕ → Prop} (hf : HasFlags D h s) (hD : ∀ x, D x → D' x) :
    HasFlags D' h s := hf.imp fun _ hl => hl.mono hD

/-- A buffer that is taken and given back leaves the flags as they were. -/
theorem update_release (hfree : h b = false) : update (update h b true) b false = h := by
  rw [update_idem, ← hfree, update_eq_self]

theorem flags_readHead (hf : HasFlags D h s) (hdev : s.log.dev = rootdev) :
    Wp (readHead true)
      (fun _ s' => HasFlags D h s' ∧ ∃ lh, s'.log = { s.log with lh := lh }) (fun _ => True) s := by
  unfold readHead
  rw [wp_bind, wp_get, hdev]
  refine (flags_bufcacheRead hf _).bind fun buf s1 h1 => ?_
  rw [wp_bind, wp_modify]
  have h2 : HasFlags D (update h buf true)
      (s1.setHeader (s1.log.lh.load (s1.c.buf buf).data)) := h1.flags.congr _ rfl
  refine (flags_bufcacheRelease h2 (update_self ..)).mono ?_ fun _ _ => trivial
  rintro _ s' ⟨hf', hlog, -⟩
  rw [update_release h1.free] at hf'
  refine ⟨hf', s1.log.lh.load (s1.c.buf buf).data, ?_⟩
  rw [hlog, ← h1.log_eq]
  rfl

theorem flags_writeHead (hf : HasFlags D h s) (hdev : s.log.dev = rootdev) :
    Wp (writeHead true) (fun _ s' => HasFlags D h s' ∧ s'.log = s.log) (fun _ => True) s := by
  unfold writeHead
  rw [wp_bind, wp_get, hdev]
  refine (flags_bufcacheRead hf _).bind fun buf s1 h1 => ?_
  have hbusy : update h buf true buf = true := update_self ..
  rw [wp_bind, wp_modify]
  refine (flags_bufcacheWrite (h1.flags.setData hbusy _) hbusy rfl).bind ?_
  rintro _ s2 ⟨h2, hlog2, -⟩
  refine (flags_bufcacheRelease h2 hbusy).mono ?_ fun _ _ => trivial
  rintro _ s' ⟨hf', hlog, -⟩
  rw [update_release h1.free] at hf'
  exact ⟨hf'.mono fun _ hx => hx.1, hlog.trans (hlog2.trans h1.log_eq)⟩

/-- One round of `install_trans`: the home sector is clean after it. -/
theorem flags_installRound (hf : HasFlags D h s) (lsector sector : ℕ) :
    Wp (do
      let lbuf ← bufcacheRead true rootdev lsector
      let dbuf ← bufcacheRead true rootdev sector
      modify fun s => s.setData dbuf (s.c.buf lbuf).data
      bufcacheWrite true dbuf
      bufcacheRelease lbuf
      bufcacheRelease dbuf)
      (fun _ s' => HasFlags (fun x => D x ∧ x ≠ sector) h s' ∧ s'.log = s.log) (fun _ => True) s := by
  refine (flags_bufcacheRead hf lsector).bind fun lbuf s1 h1 => ?_
  refine (flags_bufcacheRead h1.flags sector).bind fun dbuf s2 h2 => ?_
  have hne : dbuf ≠ lbuf := fun he => by
    have := h2.free
    rw [he, update_self] at this
    cases this
  have hfree := h2.free
  rw [update_of_ne hne] at hfree
  have hd : update (update h lbuf true) dbuf true dbuf = true :=
    update_self ..
  have hl : update (update h lbuf true) dbuf true lbuf = true := by
    rw [update_of_ne hne.symm, update_self]
  rw [wp_bind, wp_modify]
  have hsec : ((s2.setData dbuf (s2.c.buf lbuf).data).c.buf dbuf).sector = sector := by
    show ((s2.c.setBuf dbuf _).buf dbuf).sector = sector
    rw [setBuf_self]
    exact h2.sector_eq
  refine (flags_bufcacheWrite (h2.flags.setData hd _) hd hsec).bind ?_
  rintro _ s3 ⟨h3, hlog3, -⟩
  refine (flags_bufcacheRelease h3 hl).bind ?_
  rintro _ s4 ⟨h4, hlog4, -⟩
  refine (flags_bufcacheRelease h4 ?_).mono ?_ fun _ _ => trivial
  · rw [update_of_ne hne, hd]
  · rintro _ s' ⟨hf', hlog, -⟩
    rw [update_comm hne, update_release h1.free, update_release hfree] at hf'
    exact ⟨hf', hlog.trans (hlog4.trans (hlog3.trans (h2.log_eq.trans h1.log_eq)))⟩

theorem flags_installTrans (hf : HasFlags D h s) (hdev : s.log.dev = rootdev) :
    Wp (installTrans true)
      (fun _ s' => HasFlags (fun x => D x ∧ ¬ s.log.lh.Has x) h s' ∧ s'.log = s.log)
      (fun _ => True) s := by
  unfold installTrans
  rw [wp_bind, wp_get, hdev]
  -- after the round for `tail`, the sectors up to `tail` are clean
  refine (wp_forRange (E := fun _ => True) (fun tail s' => HasFlags (fun x => D x ∧
    ∀ i < tail, s.log.lh.sector i ≠ x) h s' ∧ s'.log = s.log) s.log.lh.n ?_ ?_).mono ?_ fun _ h => h
  · exact ⟨hf.mono fun x hx => ⟨hx, nofun⟩, rfl⟩
  · rintro tail - - s1 ⟨h1, hlog1⟩
    refine (flags_installRound h1 _ _).mono ?_ fun _ _ => trivial
    rintro _ s' ⟨hf', hlog⟩
    refine ⟨hf'.mono fun x hx => ⟨hx.1.1, fun i hi => ?_⟩, hlog.trans hlog1⟩
    rcases Nat.lt_succ_iff_lt_or_eq.mp hi with hlt | rfl
    · exact hx.1.2 i hlt
    · exact fun he => hx.2 he.symm
  · rintro _ s' ⟨hf', hlog⟩
    refine ⟨hf'.mono fun x hx => ⟨hx.1, fun ⟨i, hi, he⟩ => hx.2 i ?_ he⟩, hlog⟩
    rwa [Nat.zero_add]

theorem flags_installAndErase (hf : HasFlags D h s) (hdev : s.log.dev = rootdev) :
    Wp (installAndErase true)
      (fun _ s' => HasFlags (fun x => D x ∧ ¬ s.log.lh.Has x) h s' ∧
        s'.log = { s.log with lh := { s.log.lh with n := 0 } })
      (fun _ => True) s := by
  unfold installAndErase
  refine (flags_installTrans hf hdev).bind ?_
  rintro _ s1 ⟨h1, hlog1⟩
  rw [wp_bind, wp_modify]
  have hhead := h1.congr (s1.setHeader { s1.log.lh with n := 0 }) rfl
  refine (flags_writeHead hhead (?_ : s1.log.dev = rootdev)).mono ?_ fun _ h => h
  · rw [hlog1, hdev]
  · rintro _ s' ⟨hf', hlog⟩
    refine ⟨hf', hlog.trans ?_⟩
    rw [← hlog1]
    rfl

/-- Between calls of the log functions: dirty buffers hold sectors of the transaction, the
header is empty when there is none, and it stays empty until the log has its drive. -/
structure LogFlags (h : ℕ → Bool) (s : LogSys) : Prop where
  flags : HasFlags s.log.lh.Has h s
  idle : s.log.busy = false → s.log.lh.n = 0
  drive : s.log.dev = rootdev ∨ s.log.size = 0 ∧ s.log.lh.n = 0

theorem flags_beginTrans (hf : LogFlags h s) :
    Wp beginTrans (fun _ s' => LogFlags h s' ∧ s.log.busy = false ∧ s'.log.busy = true)
      (fun _ => True) s := by
  unfold beginTrans
  rw [wp_bind, wp_get]
  split
  · trivial
  · rename_i hb
    rw [wp_modify]
    exact ⟨⟨hf.flags.congr _ rfl, fun hbusy => absurd hbusy (by simp), hf.drive⟩, by simpa using hb, rfl⟩

/-- After a commit no buffer is dirty. -/
theorem flags_commitTrans (hf : LogFlags h s) :
    Wp (commitTrans true) (fun _ s' => LogFlags h s' ∧ s'.log.busy = false) (fun _ => True) s := by
  unfold commitTrans
  rw [wp_bind, wp_get]
  by_cases hn : 0 < s.log.lh.n
  · rw [if_pos hn]
    have hdev : s.log.dev = rootdev := hf.drive.resolve_right fun hd => by omega
    refine (flags_writeHead hf.flags hdev).bind ?_
    rintro _ s1 ⟨h1, hlog1⟩
    refine (flags_installAndErase h1 (by rw [hlog1, hdev])).bind ?_
    rintro _ s2 ⟨h2, hlog2⟩
    rw [wp_modify]
    rw [hlog1] at h2 hlog2
    refine ⟨⟨(h2.mono fun x hx => absurd hx.1 hx.2).congr _ rfl, fun _ => ?_, .inl ?_⟩, rfl⟩
    · show s2.log.lh.n = 0
      rw [hlog2]
    · show s2.log.dev = rootdev
      rw [hlog2, hdev]
  · rw [if_neg hn]
    exact ⟨⟨hf.flags.congr _ rfl, fun _ => Nat.eq_zero_of_not_pos hn, hf.drive⟩, rfl⟩

theorem flags_recoverFromLog (hf : HasFlags (fun _ => False) h s) (hdev : s.log.dev = rootdev) :
    Wp (recoverFromLog true) (fun _ s' => LogFlags h s' ∧ s'.log.busy = s.log.busy)
      (fun _ => True) s := by
  unfold recoverFromLog
  refine (flags_readHead hf hdev).bind ?_
  rintro _ s1 ⟨h1, lh, hlog1⟩
  refine (flags_installAndErase h1 (by rw [hlog1, hdev])).mono ?_ fun _ _ => trivial
  rintro _ s2 ⟨h2, hlog2⟩
  refine ⟨⟨h2.mono fun x hx => absurd hx.1 id, fun _ => ?_, .inl ?_⟩, ?_⟩
  · rw [hlog2]
  · rw [hlog2, hlog1, hdev]
  · rw [hlog2, hlog1]

/-- Recovery, once the log has its place on the drive. -/
theorem flags_recoverAt (hf : HasFlags (fun _ => False) h s) (hidle : s.log.busy = false)
    (start size : ℕ) :
    Wp (recoverFromLog true) (fun _ s' => LogFlags h s' ∧ s'.log.busy = false) (fun _ => True)
      { s with log := { s.log with start := start, size := size, dev := rootdev } } := by
  have hplace := hf.congr
    { s with log := { s.log with start := start, size := size, dev := rootdev } } rfl
  exact (flags_recoverFromLog hplace rfl).mono (fun _ _ hs => ⟨hs.1, hs.2.trans hidle⟩) fun _ h => h

theorem flags_logInit (hf : LogFlags h s) (hidle : s.log.busy = false) :
    Wp (logInit true) (fun _ s' => LogFlags h s' ∧ s'.log.busy = false) (fun _ => True) s := by
  have hclean : HasFlags (fun _ => False) h s := hf.flags.mono fun x hx => by
    obtain ⟨i, hi, -⟩ := hx
    have := hf.idle hidle
    omega
  unfold logInit
  refine (flags_bufcacheRead hclean _).bind fun bp s1 h1 => ?_
  rw [wp_bind, wp_get]
  refine (flags_bufcacheRelease h1.flags (update_self ..)).bind ?_
  rintro _ s2 ⟨h2, hlog2, -⟩
  rw [update_release h1.free] at h2
  rw [wp_bind, wp_modify]
  exact flags_recoverAt h2 (by rw [hlog2, h1.log_eq, hidle]) _ _

/-- `log_write` marks the buffer dirty, and the header has its sector. -/
theorem flags_logWrite (hf : LogFlags h s) (hb : h b = true) :
    Wp (logWrite true b)
      (fun _ s' => LogFlags h s' ∧ s.log.busy = true ∧ s'.log.busy = true) (fun _ => True) s := by
  unfold logWrite
  rw [wp_bind, wp_get]
  dsimp only
  by_cases hbig : logsize ≤ s.log.lh.n ∨ s.log.size ≤ s.log.lh.n + 1
  · rw [if_pos hbig]
    trivial
  rw [if_neg hbig]
  by_cases hout : s.log.busy = false
  · rw [if_pos hout]
    trivial
  rw [if_neg hout]
  have hin : s.log.busy = true := by simpa using hout
  have hdev : s.log.dev = rootdev := hf.drive.resolve_right fun hd => hbig (.inr (by omega))
  have hbdev : (s.c.buf b).dev = rootdev := by
    obtain ⟨l, hl⟩ := hf.flags
    exact hl.drive_of_busy hb
  obtain ⟨hle, hslot, -⟩ := s.log.lh.slot_spec (s.c.buf b).sector
  set i := s.log.lh.slot (s.c.buf b).sector
  set lh' := s.log.lh.setSector i (s.c.buf b).sector with hlh'
  rw [wp_bind, wp_modify, hbdev]
  refine (flags_bufcacheRead (hf.flags.congr (s.setHeader lh') rfl) _).bind fun lbuf s1 h1 => ?_
  have hne : b ≠ lbuf := fun he => by
    have := h1.free
    rw [← he, hb] at this
    cases this
  have hl : update h lbuf true lbuf = true := update_self ..
  rw [wp_bind, wp_modify]
  refine (flags_bufcacheWrite (h1.flags.setData hl _) hl rfl).bind ?_
  rintro _ s2 ⟨h2, hlog2, hother2⟩
  refine (flags_bufcacheRelease h2 hl).bind ?_
  rintro _ s3 ⟨h3, hlog3, hother3⟩
  rw [update_release h1.free] at h3
  rw [wp_bind, wp_modify, wp_modify]
  have hlog : s3.log = { s.log with lh := lh' } :=
    hlog3.trans (hlog2.trans h1.log_eq)
  have hkey : (s3.c.buf b).sector = (s.c.buf b).sector := by
    rw [hother3 b hne, hother2 b hne]
    show ((s1.c.setBuf lbuf _).buf b).sector = _
    rw [setBuf_other _ _ hne, h1.other b hne]
    rfl
  -- the header of the new state has the old sectors and that of `b`
  have hhas : ∀ x, s.log.lh.Has x ∨ x = (s.c.buf b).sector →
      (⟨if i = s3.log.lh.n then i + 1 else s3.log.lh.n, s3.log.lh.sector⟩ : LogHeader).Has x := by
    rw [hlog]
    intro x hx
    have hat : lh'.sector i = (s.c.buf b).sector := by
      rw [hlh']
      exact update_self ..
    have hrest : ∀ j, j ≠ i → lh'.sector j = s.log.lh.sector j := fun j hj => by
      rw [hlh']
      exact update_of_ne hj ..
    have hn : lh'.n = s.log.lh.n := rfl
    have hlt : i < if i = lh'.n then i + 1 else lh'.n := by
      rw [hn]
      split <;> omega
    have hmono : s.log.lh.n ≤ if i = lh'.n then i + 1 else lh'.n := by
      rw [hn]
      split <;> omega
    rcases hx with ⟨j, hj, hjx⟩ | rfl
    · by_cases hji : j = i
      · refine ⟨i, hlt, hat.trans ?_⟩
        rw [← hjx, hji]
        exact (hslot (hji ▸ hj)).symm
      · exact ⟨j, hj.trans_le hmono, (hrest j hji).trans hjx⟩
    · exact ⟨i, hlt, hat⟩
  set lh1 : LogHeader := { s3.log.lh with n := if i = s3.log.lh.n then i + 1 else s3.log.lh.n }
  have hnew : HasFlags lh1.Has h ((s3.setHeader lh1).setDirty b) :=
    h3.imp fun _ hl => (hl.mono fun x hx => hhas x (.inl hx.1)).change hb
      { s3.c.buf b with dirty := true } _ rfl rfl rfl rfl fun _ => hhas _ (.inr hkey)
  refine ⟨⟨hnew, fun hbusy => ?_, .inl ?_⟩, hin, ?_⟩
  · have : s3.log.busy = false := hbusy
    rw [hlog] at this
    exact absurd this hout
  · show s3.log.dev = rootdev
    rw [hlog]
    exact hdev
  · show s3.log.busy = true
    rw [hlog]
    exact hin

/-- The flags after boot. -/
theorem logFlags_boot (disk : Disk) (log : Log) (hbusy : log.lh.n = 0) (hsize : log.size = 0) :
    LogFlags (fun _ => false) ⟨bufcacheInit, disk, log, []⟩ := by
  refine ⟨⟨_, ring_bufcacheInit, List.reverse_perm _,
    fun _ _ => ⟨.inl rfl, fun _ => ⟨rfl, rfl⟩, nofun⟩, fun _ _ _ _ hd => ?_, fun _ => rfl, nofun⟩,
    fun _ => hbusy, .inr ⟨hsize, hbusy⟩⟩
  exact absurd hd (show ¬ noDev = rootdev by decide)

end Mcertikos
