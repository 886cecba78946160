/-
What the buffer cache shows of the disk.

Every sector of the root drive has contents: those of the buffer that has the sector, and
those on disk if no buffer has it.  The functions of the cache and of the log are described
by what they do to these contents and to the buffers that are held, and by the ways in
which they can fail.

* `Shows` — the contents, the buffers held, and the sectors whose buffers may be dirty;
* `Shows.read` — a read fails only if the sector is held already, or too many are pinned;
* `shows_logWrite`, `shows_commitTrans`, `shows_logInit` — the log functions change no
  contents outside the log.
-/
import Mathlib.Data.Finset.Option
import Mcertikos.Fs.Recovery

namespace Mcertikos

open Finset Function Bcache Hoare

/-- The panic of `bufcache_get`. -/
def noBuffers : Stop := .panic "bufcache_get: no buffers"

/-- The sectors whose buffers cannot be recycled: those that are held, and those in `L`. -/
def pinned (h : ℕ → Option ℕ) (L : Finset ℕ) : Finset ℕ :=
  L ∪ (range nbuf).biUnion fun b => (h b).toFinset

/-- Buffer `b` is held for the sector `h b`, and changed since it was last written or logged
if `m b`.  Dirty buffers have sectors in `L`, and the sectors of the root drive have the
contents `B`. -/
structure Shows (h : ℕ → Option ℕ) (m : ℕ → Bool) (L : Finset ℕ) (B : ℕ → Block) (s : LogSys) :
    Prop where
  inv : ∃ l, CacheInv s.c s.disk m l
  busy : ∀ b < nbuf, (s.c.buf b).busy = (h b).isSome
  held : ∀ b sec, h b = some sec → b < nbuf ∧ (s.c.buf b).valid = true ∧
    (s.c.buf b).dev = rootdev ∧ (s.c.buf b).sector = sec
  dirty : ∀ b < nbuf, (s.c.buf b).dirty = true →
    (s.c.buf b).dev = rootdev ∧ (s.c.buf b).sector ∈ L
  cached : ∀ b < nbuf, (s.c.buf b).valid = true → (s.c.buf b).dev = rootdev →
    (s.c.buf b).data = B (s.c.buf b).sector
  stored : ∀ sec < 2 ^ 28, (∀ b < nbuf, (s.c.buf b).valid = true → (s.c.buf b).dev = rootdev →
    (s.c.buf b).sector ≠ sec) → s.disk.sec sec = B sec

section Pinned

variable {h : ℕ → Option ℕ} {L L' : Finset ℕ} {b sec : ℕ}

theorem mem_pinned_of_held (hb : b < nbuf) (hh : h b = some sec) : sec ∈ pinned h L := by
  refine mem_union_right _ (mem_biUnion.mpr ⟨b, mem_range.mpr hb, ?_⟩)
  simp [hh]

/-- Holding one more buffer pins one more sector. -/
theorem pinned_update_subset : pinned (update h b (some sec)) L ⊆ insert sec (pinned h L) := by
  intro x hx
  rcases mem_union.mp hx with hx | hx
  · exact mem_insert_of_mem (mem_union_left _ hx)
  · obtain ⟨i, hi, hx⟩ := mem_biUnion.mp hx
    by_cases hib : i = b
    · rw [hib, update_self] at hx
      have : x = sec := by simpa using hx
      rw [this]
      exact mem_insert_self ..
    · rw [update_of_ne hib] at hx
      exact mem_insert_of_mem (mem_union_right _ (mem_biUnion.mpr ⟨i, hi, hx⟩))

theorem card_pinned_update : (pinned (update h b (some sec)) L).card
    ≤ (pinned h L).card + 1 :=
  (card_le_card pinned_update_subset).trans (card_insert_le ..)

theorem pinned_none : pinned (fun _ => none) L = L := by
  ext x
  simp [pinned]

end Pinned

namespace Shows

variable {h : ℕ → Option ℕ} {m : ℕ → Bool} {L L' : Finset ℕ} {B : ℕ → Block} {s s' : LogSys}
  {b sec : ℕ}

theorem mem_list (_ : Shows h m L B s) {l : List ℕ} (hl : CacheInv s.c s.disk m l) :
    b ∈ l ↔ b < nbuf := by
  rw [hl.perm.mem_iff, List.mem_range]

section

variable (hs : Shows h m L B s)
include hs

/-- A changed buffer is held. -/
theorem not_modified (hb : b < nbuf) (hfree : h b = none) : m b = false := by
  obtain ⟨l, hl⟩ := hs.inv
  exact hl.unmodified ((hs.mem_list hl).mpr hb) (by rw [hs.busy b hb, hfree]; rfl)

/-- Two buffers in use do not have the same sector. -/
theorem unique {i : ℕ} (hi : i < nbuf) (hb : b < nbuf)
    (hid : (s.c.buf i).dev = rootdev) (hbd : (s.c.buf b).dev = rootdev)
    (he : (s.c.buf i).sector = (s.c.buf b).sector) : i = b := by
  obtain ⟨l, hl⟩ := hs.inv
  refine hl.unique i ((hs.mem_list hl).mpr hi) b ((hs.mem_list hl).mpr hb) (hid.trans hbd.symm) he ?_
  rw [hid]
  decide

theorem held_lt (hb : h b = some sec) : sec < 2 ^ 28 := by
  obtain ⟨l, hl⟩ := hs.inv
  obtain ⟨hlt, -, hdev, hsec⟩ := hs.held b sec hb
  have hdrive := (hl.drive b ((hs.mem_list hl).mpr hlt)).resolve_left (by rw [hdev]; decide)
  rw [hsec] at hdrive
  exact hdrive.2

theorem data_of_held (hb : h b = some sec) : (s.c.buf b).data = B sec := by
  obtain ⟨hlt, hvalid, hdev, hsec⟩ := hs.held b sec hb
  rw [hs.cached b hlt hvalid hdev, hsec]

theorem mono (hL : L ⊆ L') : Shows h m L' B s :=
  { hs with dirty := fun b hb hd => ⟨(hs.dirty b hb hd).1, hL (hs.dirty b hb hd).2⟩ }

/-- The log itself does not matter. -/
theorem congr (hc : s'.c = s.c) (hd : s'.disk = s.disk) : Shows h m L B s' := by
  obtain ⟨h1, h2, h3, h4, h5, h6⟩ := hs
  rw [← hc, ← hd] at h1
  rw [← hc] at h2 h3 h4 h5 h6
  rw [← hd] at h6
  exact ⟨h1, h2, h3, h4, h5, h6⟩

theorem setHeader (lh : LogHeader) : Shows h m L B (s.setHeader lh) :=
  hs.congr rfl rfl

/-- Buffer `b` becomes `y` with the sector `sec`, which no other buffer has, and may be held.  Only
this sector changes on disk; the one that `b` gives up is there. -/
theorem put (hlt : b < nbuf) {y : Buf} {o : Option ℕ} {m' : ℕ → Bool}
    {B' : ℕ → Block} (hself : s'.c.buf b = y) (hother : ∀ i, i ≠ b → s'.c.buf i = s.c.buf i)
    (hinv : ∃ l, CacheInv s'.c s'.disk m' l)
    (hdisk : ∀ a, a ≠ lba rootdev sec → s'.disk a = s.disk a) (hslt : sec < 2 ^ 28)
    (hne : ∀ i < nbuf, i ≠ b → (s.c.buf i).dev = rootdev → (s.c.buf i).sector ≠ sec)
    (hold : (s.c.buf b).valid = true → (s.c.buf b).dev = rootdev → (s.c.buf b).sector ≠ sec →
      s.disk.sec (s.c.buf b).sector = B (s.c.buf b).sector)
    (hbusy : y.busy = o.isSome) (ho : ∀ x, o = some x → x = sec) (hvalid : y.valid = true)
    (hdev : y.dev = rootdev) (hsec : y.sector = sec) (hdata : y.data = B' sec)
    (hB : ∀ i, i ≠ sec → B' i = B i) (hL : ∀ i, i ≠ sec → i ∈ L → i ∈ L')
    (hdirty : y.dirty = true → sec ∈ L') : Shows (update h b o) m' L' B' s' := by
  refine ⟨hinv, ?_, ?_, ?_, ?_, ?_⟩
  · intro i hi
    by_cases hib : i = b
    · rw [hib, hself, hbusy, update_self]
    · rw [hother i hib, update_of_ne hib]
      exact hs.busy i hi
  · intro i sec' hi
    by_cases hib : i = b
    · rw [hib, update_self] at hi
      rw [hib, hself, ho sec' hi]
      exact ⟨hlt, hvalid, hdev, hsec⟩
    · rw [update_of_ne hib] at hi
      rw [hother i hib]
      exact hs.held i sec' hi
  · intro i hi hd
    by_cases hib : i = b
    · rw [hib, hself] at hd ⊢
      rw [hsec]
      exact ⟨hdev, hdirty hd⟩
    · rw [hother i hib] at hd ⊢
      obtain ⟨h1, h2⟩ := hs.dirty i hi hd
      exact ⟨h1, hL _ (hne i hi hib h1) h2⟩
  · intro i hi hv hd
    by_cases hib : i = b
    · rw [hib, hself, hsec]
      exact hdata
    · rw [hother i hib] at hv hd ⊢
      rw [hB _ (hne i hi hib hd)]
      exact hs.cached i hi hv hd
  · intro sec' hlt' hno
    have hsne : sec' ≠ sec := fun he =>
      hno b hlt (by rw [hself, hvalid]) (by rw [hself, hdev]) (by rw [hself, hsec, he])
    have hkeep : s'.disk.sec sec' = s.disk.sec sec' :=
      hdisk _ fun he => hsne (lba_inj ⟨by decide, hlt'⟩ ⟨by decide, hslt⟩ he).2
    rw [hkeep, hB _ hsne]
    by_cases hgone : (s.c.buf b).valid = true ∧ (s.c.buf b).dev = rootdev ∧
        (s.c.buf b).sector = sec'
    · obtain ⟨hbv, hbd, rfl⟩ := hgone
      exact hold hbv hbd hsne
    · refine hs.stored sec' hlt' fun i hi hv hd he => ?_
      by_cases hib : i = b
      · rw [hib] at hv hd he
        exact hgone ⟨hv, hd, he⟩
      · have := hno i hi
        rw [hother i hib] at this
        exact this hv hd he

/-- Changing a held buffer and its own sector on disk. -/
theorem setBuf (hb : h b = some sec) {x : Buf} {m' : ℕ → Bool}
    {B' : ℕ → Block} (hc : s'.c = s.c.setBuf b x)
    (hdisk : ∀ a, a ≠ lba rootdev sec → s'.disk a = s.disk a) (hbusy : x.busy = (s.c.buf b).busy)
    (hvalid : x.valid = true) (hdev : x.dev = rootdev) (hsec : x.sector = sec)
    (hdata : x.data = B' sec) (hB : ∀ i, i ≠ sec → B' i = B i) (hm : ∀ i, i ≠ b → m' i = m i)
    (hL : ∀ i, i ≠ sec → i ∈ L → i ∈ L') (hdirty : x.dirty = true → sec ∈ L')
    (hclean : x.dirty = false → m' b = false → x.data = s'.disk (lba rootdev sec)) :
    Shows h m' L' B' s' := by
  obtain ⟨l, hl⟩ := hs.inv
  obtain ⟨hlt, -, hbdev, hbsec⟩ := hs.held b sec hb
  have hbusy' : x.busy = (h b).isSome := hbusy.trans (hs.busy b hlt)
  have hinv : CacheInv s'.c s'.disk m' l := by
    rw [hc]
    refine hl.setBuf ((hs.mem_list hl).mpr hlt) (by rw [hbdev]; decide) (hdev.trans hbdev.symm)
      (hsec.trans hbsec.symm) ?_ hm (fun _ => by rw [hbusy', hb]; rfl) (fun _ => hvalid) ?_
    · rw [hdev, hsec]
      exact hdisk
    · rw [hdev, hsec]
      exact fun _ => hclean
  have := hs.put hlt (by rw [hc, setBuf_self]) (fun i hi => by rw [hc, setBuf_other _ _ hi])
    ⟨l, hinv⟩ hdisk (hs.held_lt hb)
    (fun i hi hib hid he => hib (hs.unique hi hlt hid hbdev (he.trans hbsec.symm)))
    (fun _ _ hne => absurd hbsec hne) hbusy' (fun x hx => Option.some.inj (hx.symm.trans hb)) hvalid
    hdev hsec hdata hB hL hdirty
  rwa [update_eq_self] at this

theorem setData (hb : h b = some sec) (data : Block) :
    Shows h (update m b true) L (update B sec data) (s.setData b data) := by
  obtain ⟨hlt, hvalid, hdev, hsec⟩ := hs.held b sec hb
  refine hs.setBuf (x := { s.c.buf b with data := data }) hb rfl (fun _ _ => rfl)
    rfl hvalid hdev hsec ?_ (fun i hi => update_of_ne hi ..)
    (fun i hi => update_of_ne hi ..) (fun _ _ hi => hi) ?_ ?_
  · rw [update_self]
  · intro hd
    have := (hs.dirty b hlt hd).2
    rwa [hsec] at this
  · intro _ hm
    rw [update_self] at hm
    cases hm

theorem setDirty (hb : h b = some sec) :
    Shows h (update m b false) (insert sec L) B (s.setDirty b) := by
  obtain ⟨hlt, hvalid, hdev, hsec⟩ := hs.held b sec hb
  exact hs.setBuf (x := { s.c.buf b with dirty := true }) hb rfl (fun _ _ => rfl) rfl hvalid hdev
    hsec (hs.data_of_held hb) (fun _ _ => rfl) (fun i hi => update_of_ne hi ..)
    (fun _ _ hi => mem_insert_of_mem hi) (fun _ => mem_insert_self ..) nofun

/-- `bufcache_write` of a held buffer. -/
theorem write {F : Stop → LogSys → Prop} (hb : h b = some sec) :
    Outcome (bufcacheWrite true b)
      (fun _ s' => Shows h (update m b false) (L.erase sec) B s' ∧ s'.log = s.log)
      F s := by
  obtain ⟨hlt, hvalid, hdev, hsec⟩ := hs.held b sec hb
  have hbusy : (s.c.buf b).busy = true := by
    rw [hs.busy b hlt, hb]
    rfl
  have hwrite : Hoare.Wp (bufcacheWrite true b) (fun _ s' => s' = { s with
      c := s.c.setBuf b { s.c.buf b with valid := true, dirty := false }
      disk := update s.disk (lba (s.c.buf b).dev (s.c.buf b).sector) (s.c.buf b).data
      past := s.disk :: s.past }) (fun _ => False) s :=
    wp_bufcacheWrite hbusy rfl nofun
  obtain ⟨⟨⟩, s', hs', rfl⟩ := hwrite.exists_ok
  unfold Outcome
  rw [hs']
  refine ⟨?_, rfl⟩
  rw [hdev, hsec]
  have hdata := hs.data_of_held hb
  refine hs.setBuf (x := { s.c.buf b with valid := true, dirty := false }) hb rfl
    (fun a ha => update_of_ne ha ..) rfl rfl hdev hsec hdata (fun _ _ => rfl)
    (fun i hi => update_of_ne hi ..) (fun i hi hiL => mem_erase.mpr ⟨hi, hiL⟩)
    nofun fun _ _ => ?_
  exact (update_self (lba rootdev sec) (s.c.buf b).data s.disk).symm

theorem release {F : Stop → LogSys → Prop} (hb : h b = some sec) (hm : m b = false) :
    Outcome (bufcacheRelease b)
      (fun _ s' => Shows (update h b none) m L B s' ∧ s'.log = s.log) F s := by
  obtain ⟨hlt, hvalid, hdev, hsec⟩ := hs.held b sec hb
  have hbusy : (s.c.buf b).busy = true := by
    rw [hs.busy b hlt, hb]
    rfl
  obtain ⟨⟨⟩, s', hs', rfl⟩ := (wp_bufcacheRelease
    (Q := fun _ s' => s' = { s with c := s.c.bufcacheRelease b }) (E := fun _ => False) hbusy
    rfl).exists_ok
  unfold Outcome
  rw [hs']
  refine ⟨?_, rfl⟩
  obtain ⟨l, hl⟩ := hs.inv
  exact hs.put hlt (setBuf_self s.c b _) (fun i hi => setBuf_other s.c _ hi)
    (hl.release ((hs.mem_list hl).mpr hlt) (by rw [hdev]; decide) hm) (fun _ _ => rfl)
    (hs.held_lt hb) (fun i hi hib hid he => hib (hs.unique hi hlt hid hdev (he.trans hsec.symm)))
    (fun _ _ hne => absurd hsec hne) rfl nofun hvalid hdev hsec (hs.data_of_held hb)
    (fun _ _ => rfl) (fun _ _ hi => hi) fun hd => hsec ▸ (hs.dirty b hlt hd).2

/-! ### Reading -/

/-- A free buffer is taken for a sector and has its contents. -/
theorem taken (hlt : b < nbuf) (hfree : h b = none) (hslt : sec < 2 ^ 28)
    (hne : ∀ i < nbuf, i ≠ b → (s.c.buf i).dev = rootdev → (s.c.buf i).sector ≠ sec) {y : Buf}
    (hc : s'.c = s.c.setBuf b y) (hdisk : s'.disk = s.disk) (hinv : ∃ l, CacheInv s'.c s'.disk m l)
    (hbusy : y.busy = true) (hvalid : y.valid = true) (hdev : y.dev = rootdev)
    (hsec : y.sector = sec) (hdata : y.data = B sec) (hdirty : y.dirty = true → sec ∈ L)
    (hold : (s.c.buf b).dirty = false ∨ (s.c.buf b).sector = sec) :
    Shows (update h b (some sec)) m L B s' := by
  refine hs.put hlt (by rw [hc, setBuf_self]) (fun i hi => by rw [hc, setBuf_other _ _ hi]) hinv
    (fun a _ => by rw [hdisk]) hslt hne (fun hbv hbd hbs => ?_) hbusy
    (fun x hx => (Option.some.inj hx).symm) hvalid hdev hsec hdata (fun _ _ => rfl)
    (fun _ _ hi => hi) hdirty
  -- the buffer had another sector, and gives it up: it was clean
  obtain ⟨l, hl⟩ := hs.inv
  have hclean := hl.clean b ((hs.mem_list hl).mpr hlt) hbv (hold.resolve_right hbs)
    (hs.not_modified hlt hfree)
  rw [hbd, hs.cached b hlt hbv hbd] at hclean
  exact hclean.symm

end

/-- Why a read fails: the sector is held already, or every buffer is pinned. -/
def ReadFails (h : ℕ → Option ℕ) (L : Finset ℕ) (sec : ℕ) (e : Stop) : Prop :=
  (e = .asleep ∧ ∃ b, h b = some sec) ∨ (e = noBuffers ∧ nbuf ≤ (pinned h L).card)

/-- If every buffer is busy or dirty, there are as many pinned sectors as buffers. -/
theorem le_card_pinned (hs : Shows h m L B s)
    (hall : ∀ b < nbuf, (s.c.buf b).busy = true ∨ (s.c.buf b).dirty = true) :
    nbuf ≤ (pinned h L).card := by
  have hkey : ∀ b < nbuf, (s.c.buf b).dev = rootdev ∧ (s.c.buf b).sector ∈ pinned h L := by
    intro b hb
    rcases hall b hb with hbusy | hdirty
    · rw [hs.busy b hb] at hbusy
      obtain ⟨sec, hsec⟩ := Option.isSome_iff_exists.mp hbusy
      obtain ⟨-, -, hdev, he⟩ := hs.held b sec hsec
      rw [he]
      exact ⟨hdev, mem_pinned_of_held hb hsec⟩
    · obtain ⟨hdev, hL⟩ := hs.dirty b hb hdirty
      exact ⟨hdev, mem_union_left _ hL⟩
  have hcard := card_le_card_of_injOn (s := range nbuf) (t := pinned h L)
    (fun b => (s.c.buf b).sector) (fun b hb => (hkey b (mem_range.mp hb)).2) ?_
  · rwa [card_range] at hcard
  · intro b hb b' hb' he
    have hb := mem_range.mp hb
    have hb' := mem_range.mp hb'
    exact hs.unique hb hb' (hkey b hb).1 (hkey b' hb').1 he

/-- **Reading** gives a buffer with the contents of the sector. -/
theorem read (hs : Shows h m L B s) (hslt : sec < 2 ^ 28) :
    Outcome (bufcacheRead true rootdev sec)
      (fun b s' => b < nbuf ∧ h b = none ∧ (∀ i, h i ≠ some sec) ∧
        Shows (update h b (some sec)) m L B s' ∧ s'.log = s.log)
      (fun e _ => ReadFails h L sec e) s := by
  obtain ⟨l, hl⟩ := hs.inv
  refine (outcome_bufcacheRead hl ⟨by decide, hslt⟩).mono ?_ ?_
  · rintro b s' ⟨x, hx⟩
    have hlt := (hs.mem_list hl).mp hx.mem
    have hfree : h b = none := by
      have hbusy := hs.busy b hlt
      rw [hx.free] at hbusy
      simpa using hbusy.symm
    -- the sector has no other buffer
    have hne : ∀ i < nbuf, i ≠ b → (s.c.buf i).dev = rootdev → (s.c.buf i).sector ≠ sec := by
      intro i hi hib hid his
      have hi' : s'.c.buf i = s.c.buf i := by rw [hx.cache, setBuf_other _ _ hib]
      exact hib (hx.inv.unique i ((hs.mem_list hl).mpr hi) b hx.mem (by rw [hi', hx.buf, hid, hx.dev_eq])
        (by rw [hi', hx.buf, his, hx.sector_eq]) (by rw [hi', hid]; decide))
    have hdata : x.data = B sec := by
      cases hd : x.dirty with
      | true =>
        obtain ⟨hdirty, hdev, hsec⟩ := hx.dirty hd
        rw [hx.kept hd, ← hsec]
        exact hs.cached b hlt (hl.dirty_valid b hx.mem hdirty) hdev
      | false =>
        have hm := hs.not_modified hlt hfree
        rw [hx.data hd hm]
        by_cases hv : (s.c.buf b).valid = true ∧ (s.c.buf b).dev = rootdev ∧ (s.c.buf b).sector = sec
        · obtain ⟨hv, hdev, hsec⟩ := hv
          have hclean := hl.clean b hx.mem hv (hx.dirty_eq.symm.trans hd) hm
          rw [hs.cached b hlt hv hdev, hdev, hsec] at hclean
          exact hclean.symm
        · refine hs.stored sec hslt fun i hi hvi hdi hsi => ?_
          by_cases hib : i = b
          · exact hv ⟨hib ▸ hvi, hib ▸ hdi, hib ▸ hsi⟩
          · exact hne i hi hib hdi hsi
    refine ⟨hlt, hfree, fun i hi => ?_, ?_, hx.log_eq⟩
    · obtain ⟨hilt, -, hid, his⟩ := hs.held i sec hi
      exact hne i hilt (fun hib => by rw [hib, hfree] at hi; cases hi) hid his
    · refine hs.taken hlt hfree hslt hne hx.cache hx.disk_eq ⟨l, hx.inv⟩ hx.busy hx.valid hx.dev_eq
        hx.sector_eq hdata (fun hd => ?_) ?_
      · obtain ⟨hdirty, -, hsec⟩ := hx.dirty hd
        exact hsec ▸ (hs.dirty b hlt hdirty).2
      · rw [← hx.dirty_eq]
        cases hd : x.dirty with
        | false => exact .inl rfl
        | true => exact .inr (hx.dirty hd).2.2
  · rintro e s' ⟨hstuck, -⟩
    cases hstuck with
    | noDrive h => cases h
    | @busy b hb hd hsec hbusy =>
      have hlt := (hs.mem_list hl).mp hb
      rw [hs.busy b hlt] at hbusy
      obtain ⟨sec', hsec'⟩ := Option.isSome_iff_exists.mp hbusy
      have hsame : sec' = sec := (hs.held b sec' hsec').2.2.2.symm.trans hsec
      exact .inl ⟨rfl, b, hsame ▸ hsec'⟩
    | full hall => exact .inr ⟨rfl, hs.le_card_pinned fun b hb => hall b ((hs.mem_list hl).mpr hb)⟩

end Shows

/-! ### The log functions -/

section LogFunctions

variable {h : ℕ → Option ℕ} {m : ℕ → Bool} {L : Finset ℕ} {B : ℕ → Block} {s : LogSys} {b sec : ℕ}

/-- A buffer that is taken and given back. -/
theorem update_held_back (hfree : h b = none) : update (update h b (some sec)) b none = h := by
  rw [update_idem, ← hfree, update_eq_self]

/-- A buffer that is changed and written. -/
theorem update_modified_back (hm : m b = false) : update (update m b true) b false = m := by
  rw [update_idem, ← hm, update_eq_self]

/-- A held buffer gets new contents, is written and released. -/
theorem shows_overwrite {F : Stop → LogSys → Prop} (hs : Shows (update h b (some sec)) m L B s)
    (hfree : h b = none) (hm : m b = false) (data : Block) :
    Outcome (do
        bufcacheWrite true b
        bufcacheRelease b)
      (fun _ s' => Shows h m (L.erase sec) (update B sec data) s' ∧ s'.log = s.log) F
      (s.setData b data) := by
  have hheld : update h b (some sec) b = some sec := update_self ..
  refine ((hs.setData hheld data).write hheld).bind ?_
  rintro _ s1 ⟨h1, hlog1⟩
  rw [update_modified_back hm] at h1
  refine (h1.release hheld hm).mono ?_ fun _ _ h => h
  rintro _ s2 ⟨h2, hlog2⟩
  rw [update_held_back hfree] at h2
  exact ⟨h2, hlog2.trans hlog1⟩

theorem shows_writeHead (hs : Shows h m L B s) (hdev : s.log.dev = rootdev)
    (hlt : s.log.start < 2 ^ 28) :
    Outcome (writeHead true) (fun _ s' => Shows h m L
          (update B s.log.start (s.log.lh.headBlock (B s.log.start))) s' ∧ s'.log = s.log)
      (fun e _ => Shows.ReadFails h L s.log.start e) s := by
  unfold writeHead
  rw [outcome_bind, outcome_get, hdev]
  refine (hs.read hlt).bind ?_
  rintro buf s1 ⟨hb, hfree, -, h1, hlog1⟩
  rw [outcome_bind, outcome_modify, h1.data_of_held (update_self ..), hlog1]
  refine (shows_overwrite h1 hfree (hs.not_modified hb hfree) _).mono ?_ fun _ _ h => h
  rintro _ s2 ⟨h2, hlog2⟩
  exact ⟨h2.mono (erase_subset ..), hlog2.trans hlog1⟩

/-- The panic of `log_write` in a transaction that is too big. -/
def tooBig : Stop := .panic "too big a transaction"

/-- The panic of `log_write` outside a transaction. -/
def outsideTrans : Stop := .panic "write outside of trans"

/-- Why `log_write` fails. -/
def LogWriteFails (h : ℕ → Option ℕ) (L : Finset ℕ) (log : Log) (sec : ℕ) (e : Stop) : Prop :=
  (e = tooBig ∧ (logsize ≤ log.lh.n ∨ log.size ≤ log.lh.n + 1)) ∨
    (e = outsideTrans ∧ log.busy = false) ∨
    (log.lh.n + 1 < log.size ∧ Shows.ReadFails h L (log.start + log.lh.slot sec + 1) e)

/-- **`log_write`** copies the contents to the log and pins the buffer. -/
theorem shows_logWrite (hs : Shows h m L B s) (hb : h b = some sec)
    (hlt : s.log.start + s.log.size ≤ 2 ^ 28) :
    Outcome (logWrite true b)
      (fun _ s' => (s.log.busy = true ∧ s.log.lh.n < logsize ∧ s.log.lh.n + 1 < s.log.size) ∧
        Shows h (update m b false) (insert sec L)
          (update B (s.log.start + s.log.lh.slot sec + 1) (B sec)) s' ∧
        s'.log = { s.log with lh := s.log.lh.enter sec })
      (fun e _ => LogWriteFails h L s.log sec e) s := by
  obtain ⟨hbn, -, hbdev, hbsec⟩ := hs.held b sec hb
  unfold logWrite
  rw [outcome_bind, outcome_get]
  dsimp only
  rw [hbsec, hbdev]
  split_ifs with hbig hout
  · exact .inl ⟨rfl, hbig⟩
  · exact .inr (.inl ⟨rfl, hout⟩)
  have hslot := (s.log.lh.slot_spec sec).1
  set i := s.log.lh.slot sec
  have hlsec : s.log.start + i + 1 < 2 ^ 28 := by omega
  rw [outcome_bind, outcome_modify, hbsec, outcome_bind]
  have h0 := hs.setHeader (s.log.lh.setSector i sec)
  refine (h0.read hlsec).mono ?_ fun e _ he => .inr (.inr ⟨by omega, he⟩)
  rintro lbuf s1 ⟨hl, hfree, hnot, h1, hlog1⟩
  have hne : b ≠ lbuf := fun he => by
    rw [he, hfree] at hb
    cases hb
  have hb1 : update h lbuf (some (s.log.start + i + 1)) b = some sec := by
    rw [update_of_ne hne, hb]
  rw [outcome_bind, outcome_modify, h1.data_of_held hb1, ← bind_assoc]
  refine (shows_overwrite h1 hfree (hs.not_modified hl hfree) _).bind ?_
  rintro _ s2 ⟨h2, hlog2⟩
  have hlog : s2.log = { s.log with lh := s.log.lh.setSector i sec } := hlog2.trans hlog1
  rw [outcome_bind, outcome_modify, outcome_modify]
  refine ⟨⟨by simpa using hout, by omega, by omega⟩, ?_, ?_⟩
  · have h3 := (h2.mono (erase_subset ..)).setHeader { s2.log.lh with
      n := if i = s2.log.lh.n then i + 1 else s2.log.lh.n }
    exact h3.setDirty hb
  · show { s2.log with lh := ({ s2.log.lh with
      n := if i = s2.log.lh.n then i + 1 else s2.log.lh.n } : LogHeader) } = _
    rw [hlog]
    rfl

/-! ### Commit and recovery -/

theorem readFails_none {e : Stop} (he : Shows.ReadFails (fun _ => none) L sec e) :
    e = noBuffers ∧ nbuf ≤ L.card := by
  rcases he with ⟨-, b, hb⟩ | he
  · cases hb
  · rwa [pinned_none] at he

/-- A failure because there are too many pinned buffers. -/
def TooMany (L : Finset ℕ) (e : Stop) : Prop := e = noBuffers ∧ nbuf ≤ L.card + 1

theorem tooMany_of_readFails {e : Stop} (he : Shows.ReadFails (fun _ => none) L sec e) :
    TooMany L e := ⟨(readFails_none he).1, (readFails_none he).2.trans (Nat.le_succ _)⟩

/-- One round of `install_trans`. -/
theorem shows_installRound {lsec : ℕ} (hs : Shows (fun _ => none) m L B s) (hllt : lsec < 2 ^ 28)
    (hlt : sec < 2 ^ 28) (hne : lsec ≠ sec) (hsame : B lsec = B sec) :
    Outcome (do
        let lbuf ← bufcacheRead true rootdev lsec
        let dbuf ← bufcacheRead true rootdev sec
        modify fun s => s.setData dbuf (s.c.buf lbuf).data
        bufcacheWrite true dbuf
        bufcacheRelease lbuf
        bufcacheRelease dbuf)
      (fun _ s' => Shows (fun _ => none) m (L.erase sec) B s' ∧ s'.log = s.log)
      (fun e _ => TooMany L e) s := by
  rw [outcome_bind]
  refine (hs.read hllt).mono ?_ fun e _ => tooMany_of_readFails
  rintro lbuf s1 ⟨hl, -, -, h1, hlog1⟩
  rw [outcome_bind]
  refine (h1.read hlt).mono ?_ ?_
  · rintro dbuf s2 ⟨hd, hfree, -, h2, hlog2⟩
    have hbne : dbuf ≠ lbuf := fun he => by
      rw [he, update_self] at hfree
      cases hfree
    have hdheld : update (update (fun _ => none) lbuf (some lsec)) dbuf (some sec)
        dbuf = some sec := update_self ..
    have hlheld : update (update (fun _ => none) lbuf (some lsec)) dbuf (some sec)
        lbuf = some lsec := by rw [update_of_ne hbne.symm, update_self]
    have hmd : m dbuf = false := hs.not_modified hd rfl
    rw [outcome_bind, outcome_modify, h2.data_of_held hlheld, hsame]
    refine ((h2.setData hdheld _).write hdheld).bind ?_
    rintro _ s3 ⟨h3, hlog3⟩
    rw [update_modified_back hmd, update_eq_self] at h3
    refine (h3.release hlheld (hs.not_modified hl rfl)).bind ?_
    rintro _ s4 ⟨h4, hlog4⟩
    have hdheld' : update (update (update (fun _ => none) lbuf
        (some lsec)) dbuf (some sec)) lbuf none dbuf = some sec := by
      rw [update_of_ne hbne, hdheld]
    refine (h4.release hdheld' hmd).mono ?_ fun _ _ h => h
    rintro _ s5 ⟨h5, hlog5⟩
    have hback : update (update (update (update
        (fun _ => none) lbuf (some lsec)) dbuf (some sec)) lbuf none) dbuf none = fun _ => none := by
      funext i
      simp only [update_apply]
      split_ifs <;> rfl
    rw [hback] at h5
    exact ⟨h5, hlog5.trans (hlog4.trans (hlog3.trans (hlog2.trans hlog1)))⟩
  · rintro e - (⟨-, i, hi⟩ | ⟨he, hcard⟩)
    · by_cases hil : i = lbuf
      · rw [hil, update_self] at hi
        exact absurd (Option.some.inj hi) hne
      · rw [update_of_ne hil] at hi
        cases hi
    · refine ⟨he, hcard.trans (card_pinned_update.trans ?_)⟩
      rw [pinned_none]

variable {A : LogArea}

/-- The log blocks have the contents of the sectors in the header. -/
def Copied (A : LogArea) (lh : LogHeader) (B : ℕ → Block) : Prop :=
  ∀ i < lh.n, B (A.start + i + 1) = B (lh.sector i)

theorem shows_installTrans (hs : Shows (fun _ => none) m L B s) (hat : s.At A)
    (hf : s.log.lh.Fits A) (hcopied : Copied A s.log.lh B) :
    Outcome (installTrans true)
      (fun _ s' => Shows (fun _ => none) m (L.filter fun x => ∀ i < s.log.lh.n, s.log.lh.sector i ≠ x)
        B s' ∧ s'.log = s.log)
      (fun e _ => TooMany L e) s := by
  unfold installTrans
  rw [outcome_bind, outcome_get, hat.1, hat.2]
  have hloop := outcome_forRange (F := fun e _ => TooMany L e) (s := s) (a := 0)
    (f := fun tail => do
      let lbuf ← bufcacheRead true rootdev (A.start + tail + 1)
      let dbuf ← bufcacheRead true rootdev (s.log.lh.sector tail)
      modify fun s => s.setData dbuf (s.c.buf lbuf).data
      bufcacheWrite true dbuf
      bufcacheRelease lbuf
      bufcacheRelease dbuf)
    (fun tail s' => Shows (fun _ => none) m
      (L.filter fun x => ∀ i < tail, s.log.lh.sector i ≠ x) B s' ∧ s'.log = s.log) s.log.lh.n ?_ ?_
  · rwa [Nat.zero_add] at hloop
  · refine ⟨hs.mono fun x hx => ?_, rfl⟩
    exact mem_filter.mpr ⟨hx, nofun⟩
  · rintro tail - htail s1 ⟨h1, hlog1⟩
    rw [Nat.zero_add] at htail
    have hhold := hf.holds htail
    have hne : A.start + tail + 1 ≠ s.log.lh.sector tail := fun he =>
      hf.outside tail htail (he ▸ hhold)
    refine (shows_installRound h1 hhold.onDrive.2 (hf.lt tail htail) hne
      (hcopied tail htail)).mono ?_ ?_
    · rintro _ s2 ⟨h2, hlog2⟩
      refine ⟨h2.mono fun x hx => ?_, hlog2.trans hlog1⟩
      obtain ⟨hxne, hx⟩ := mem_erase.mp hx
      obtain ⟨hxL, hx⟩ := mem_filter.mp hx
      refine mem_filter.mpr ⟨hxL, fun i hi => ?_⟩
      rcases Nat.lt_succ_iff_lt_or_eq.mp hi with hlt | rfl
      · exact hx i hlt
      · exact hxne.symm
    · rintro e - ⟨he, hcard⟩
      exact ⟨he, hcard.trans (Nat.succ_le_succ (card_filter_le ..))⟩

theorem shows_installAndErase (hs : Shows (fun _ => none) m L B s) (hat : s.At A)
    (hf : s.log.lh.Fits A) (hcopied : Copied A s.log.lh B)
    (hL : ∀ x ∈ L, ∃ i < s.log.lh.n, s.log.lh.sector i = x) :
    Outcome (installAndErase true)
      (fun _ s' => (∃ data, Shows (fun _ => none) m ∅ (update B A.start data) s') ∧
        s'.log = { s.log with lh := { s.log.lh with n := 0 } })
      (fun e _ => TooMany L e) s := by
  unfold installAndErase
  refine (shows_installTrans hs hat hf hcopied).bind ?_
  rintro _ s1 ⟨h1, hlog1⟩
  have hempty : (L.filter fun x => ∀ i < s.log.lh.n, s.log.lh.sector i ≠ x) = ∅ := by
    refine filter_eq_empty_iff.mpr fun x hx hno => ?_
    obtain ⟨i, hi, he⟩ := hL x hx
    exact hno i hi he
  rw [hempty] at h1
  rw [outcome_bind, outcome_modify]
  have h2 := h1.setHeader { s1.log.lh with n := 0 }
  have hstart : (s1.setHeader { s1.log.lh with n := 0 }).log.start = A.start := by
    show s1.log.start = A.start
    rw [hlog1, hat.2]
  refine (shows_writeHead h2 ?_ ?_).mono ?_ ?_
  · show s1.log.dev = rootdev
    rw [hlog1, hat.1]
  · rw [hstart]
    exact A.holds_start.onDrive.2
  · rintro _ s3 ⟨h3, hlog3⟩
    rw [hstart] at h3
    refine ⟨⟨_, h3⟩, hlog3.trans ?_⟩
    rw [← hlog1]
    rfl
  · rintro e - he
    have hfull := (readFails_none he).2
    exact absurd hfull (by decide)

/-- **`commit_trans`** leaves the contents outside the log, and no buffer is pinned. -/
theorem shows_commitTrans (hs : Shows (fun _ => none) m L B s)
    (hlog : 0 < s.log.lh.n → s.At A ∧ s.log.lh.Fits A ∧ Copied A s.log.lh B)
    (hL : ∀ x ∈ L, ∃ i < s.log.lh.n, s.log.lh.sector i = x) :
    Outcome (commitTrans true)
      (fun _ s' => (∃ B', (∀ x, ¬ A.Holds x → B' x = B x) ∧ Shows (fun _ => none) m ∅ B' s' ∧
          (s.log.lh.n = 0 → B' = B)) ∧
        s'.log = { s.log with busy := false, lh := { s.log.lh with n := 0 } })
      (fun e _ => TooMany L e) s := by
  unfold commitTrans
  rw [outcome_bind, outcome_get]
  by_cases hn : 0 < s.log.lh.n
  · rw [if_pos hn]
    obtain ⟨hat, hf, hcopied⟩ := hlog hn
    have hstart : ∀ {x}, ¬ A.Holds x → x ≠ A.start := fun {x} hx he => hx (he ▸ A.holds_start)
    rw [outcome_bind]
    refine (shows_writeHead hs hat.1 (by rw [hat.2]; exact A.holds_start.onDrive.2)).mono ?_
      fun e _ => tooMany_of_readFails
    rintro _ s1 ⟨h1, hlog1⟩
    rw [hat.2] at h1
    have hat1 : s1.At A := by
      unfold LogSys.At
      rw [hlog1]
      exact hat
    -- the header is not one of the log blocks, and no sector of the transaction
    have hcopied1 : Copied A s1.log.lh
        (update B A.start (s.log.lh.headBlock (B A.start))) := by
      intro i hi
      rw [hlog1] at hi ⊢
      rw [update_of_ne (by omega), update_of_ne (hstart (hf.outside i hi))]
      exact hcopied i hi
    refine (shows_installAndErase h1 hat1 (by rw [hlog1]; exact hf) hcopied1
      (by rw [hlog1]; exact hL)).bind ?_
    rintro _ s2 ⟨⟨data, h2⟩, hlog2⟩
    rw [outcome_modify]
    refine ⟨⟨_, fun x hx => ?_, h2.congr rfl rfl, fun h0 => absurd h0 (by omega)⟩, ?_⟩
    · rw [update_of_ne (hstart hx), update_of_ne (hstart hx)]
    · dsimp only
      rw [hlog2, hlog1]
  · rw [if_neg hn]
    have hempty : L = ∅ := eq_empty_of_forall_notMem fun x hx => by
      obtain ⟨i, hi, -⟩ := hL x hx
      omega
    subst hempty
    refine ⟨⟨B, fun _ _ => rfl, hs.congr rfl rfl, fun _ => rfl⟩, ?_⟩
    have hn0 : s.log.lh.n = 0 := by omega
    rw [← hn0]

/-- **`log_init`** on a disk with an empty log. -/
theorem shows_logInit {F : Stop → LogSys → Prop} (hs : Shows (fun _ => none) m ∅ B s)
    (hstart : superStart (B 1) = A.start) (hsize : superNlog (B 1) = A.size)
    (hhead : (B A.start).read32 0 = 0) :
    Outcome (logInit true)
      (fun _ s' => (∃ data, Shows (fun _ => none) m ∅ (update B A.start data) s') ∧
        s'.At A ∧ s'.log.size = A.size ∧ s'.log.lh.n = 0 ∧ s'.log.busy = s.log.busy)
      F s := by
  have hfew : ∀ {sec e}, ¬ Shows.ReadFails (fun _ => none) ∅ sec e := fun he =>
    absurd (readFails_none he).2 (by decide)
  unfold logInit recoverFromLog readHead
  rw [outcome_bind]
  refine (hs.read (by decide : 1 < 2 ^ 28)).mono ?_ fun e _ he => absurd he hfew
  rintro bp s1 ⟨hb, hfree, -, h1, hlog1⟩
  rw [outcome_bind, outcome_get, h1.data_of_held (update_self ..), hstart, hsize]
  refine (h1.release (update_self ..) (hs.not_modified hb hfree)).bind ?_
  rintro _ s2 ⟨h2, hlog2⟩
  rw [update_held_back hfree] at h2
  rw [outcome_bind, outcome_modify]
  set s3 : LogSys := { s2 with log := { s2.log with
    start := A.start, size := A.size, dev := rootdev } }
  have h3 : Shows (fun _ => none) m ∅ B s3 := h2.congr rfl rfl
  rw [outcome_bind, outcome_bind, outcome_get, outcome_bind]
  refine (h3.read A.holds_start.onDrive.2).mono ?_ fun e _ he => absurd he hfew
  rintro buf s4 ⟨hb4, hfree4, -, h4, hlog4⟩
  rw [outcome_bind, outcome_modify, h4.data_of_held (update_self ..)]
  have h5 := h4.setHeader (s4.log.lh.load (B A.start))
  refine (h5.release (update_self ..) (hs.not_modified hb4 hfree4)).mono ?_ fun _ _ h => h
  rintro _ s6 ⟨h6, hlog6⟩
  rw [update_held_back hfree4] at h6
  have hlog : s6.log = { s3.log with lh := s3.log.lh.load (B A.start) } := by
    rw [hlog6, ← hlog4]
    rfl
  have hn : s6.log.lh.n = 0 := by
    rw [hlog]
    show (if (B A.start).read32 0 < 2 ^ 31 then (B A.start).read32 0 else 0) = 0
    rw [hhead]
    rfl
  have hat : s6.At A := by
    unfold LogSys.At
    rw [hlog]
    exact ⟨rfl, rfl⟩
  have hnone : ∀ {i}, ¬ i < s6.log.lh.n := by
    rw [hn]
    exact Nat.not_lt_zero _
  have hf : s6.log.lh.Fits A := ⟨by rw [hn]; exact Nat.zero_le _, by rw [hn]; exact A.size_pos,
    fun i hi => absurd hi hnone, fun i hi => absurd hi hnone⟩
  refine (shows_installAndErase h6 hat hf (fun i hi => absurd hi hnone)
    (fun x hx => absurd hx (notMem_empty x))).mono ?_ ?_
  · rintro _ s7 ⟨h7, hlog7⟩
    refine ⟨h7, ?_, ?_, ?_, ?_⟩
    · unfold LogSys.At
      rw [hlog7]
      exact hat
    · rw [hlog7, hlog]
    · rw [hlog7]
    · rw [hlog7, hlog]
      show s2.log.busy = s.log.busy
      rw [hlog2, hlog1]
  · rintro e - ⟨-, hcard⟩
    exact absurd hcard (by decide)

end LogFunctions

end Mcertikos
