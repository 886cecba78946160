/-
The buffer cache (`fs/bufcache.c`), one critical section at a time.

`NBUF` buffers and the list head form a ring in MRU order; the head has index
`NBUF`.  The functions here are the sections of the source that run without
being interrupted: what `bufcache_get` does while it holds `bcache.lock`, one
request of `ide_rw`, and `bufcache_release`.

* `bufcacheGet_cases` — everything `bufcache_get` can do;
* `CacheInv` — ring, unique sectors, and clean buffers agree with the disk, with a
  preservation lemma for every section.
-/
import Mcertikos.Fs.Disk
import Mcertikos.Lib.Ring

namespace Mcertikos

open List Function Ring

/-- `NBUF`. -/
def nbuf : ℕ := 10

/-- `(uint32_t) -1`, the device number of a buffer that was never used. -/
def noDev : ℕ := 2 ^ 32 - 1

theorem OnDrive.used {dev sector : ℕ} (h : OnDrive dev sector) : dev ≠ noDev := by
  have := h.1
  unfold noDev
  omega

/-- `struct buf`, without the list fields; the flags are `B_BUSY`, `B_VALID` and
`B_DIRTY`. -/
structure Buf where
  busy : Bool
  valid : Bool
  dirty : Bool
  dev : ℕ
  sector : ℕ
  data : Block

/-- `bcache`: the buffers and the list fields of buffers and head. -/
structure Bcache where
  buf : ℕ → Buf
  links : Links ℕ

namespace Bcache

def setBuf (c : Bcache) (b : ℕ) (x : Buf) : Bcache := { c with buf := update c.buf b x }

@[simp] theorem setBuf_self (c : Bcache) (b : ℕ) (x : Buf) : (c.setBuf b x).buf b = x := by
  simp [setBuf]

variable {b : ℕ} {c c' : Bcache} {disk disk' : Disk} {havedisk1 : Bool}

theorem setBuf_other (c : Bcache) {i : ℕ} (x : Buf) (h : i ≠ b) :
    (c.setBuf b x).buf i = c.buf i := by simp [setBuf, h]

theorem setBuf_setBuf (c : Bcache) (b : ℕ) (x y : Buf) :
    (c.setBuf b x).setBuf b y = c.setBuf b y := by
  simp [setBuf]

/-- The four assignments that put `b` behind the head. -/
def pushFront (k : Links ℕ) (b : ℕ) : Links ℕ :=
  let k₁ := k.setNext b (k.next nbuf)
  let k₂ := k₁.setPrev b nbuf
  let k₃ := k₂.setPrev (k₂.next nbuf) b
  k₃.setNext nbuf b

/-- The two assignments that take `b` out of the list. -/
def takeOut (k : Links ℕ) (b : ℕ) : Links ℕ :=
  let k₁ := k.setPrev (k.next b) (k.prev b)
  k₁.setNext (k₁.prev b) (k₁.next b)

/-- `bufcache_init`, on zeroed static data. -/
def bufcacheInit : Bcache where
  buf := fun _ => ⟨false, false, false, noDev, 0, default⟩
  links := Memory.loop (fun b k => pushFront k b) nbuf ⟨fun _ => nbuf, fun _ => nbuf⟩

/-- What `bufcache_get` does with the lock: take a buffer, go to sleep on one, or
panic.  `diverge` stands for a walk around a broken list. -/
inductive GetResult where
  | take (b : ℕ) (c : Bcache)
  | sleep (b : ℕ)
  | noBuffers
  | diverge

def bufcacheGet (c : Bcache) (dev sector : ℕ) : GetResult :=
  match scan c.links.next nbuf (fun b => (c.buf b).dev = dev ∧ (c.buf b).sector = sector)
      (nbuf + 1) (c.links.next nbuf) with
  | none => .diverge
  | some b =>
    if b ≠ nbuf then
      if (c.buf b).busy = false then .take b (c.setBuf b { c.buf b with busy := true })
      else .sleep b
    else
      match scan c.links.prev nbuf (fun b => (c.buf b).busy = false ∧ (c.buf b).dirty = false)
          (nbuf + 1) (c.links.prev nbuf) with
      | none => .diverge
      | some b =>
        if b ≠ nbuf then
          .take b (c.setBuf b ⟨true, false, false, dev, sector, (c.buf b).data⟩)
        else .noBuffers

/-- A finished request of `ide_rw`, `none` if it panics. -/
def ideRw (havedisk1 : Bool) (c : Bcache) (disk : Disk) (b : ℕ) : Option (Bcache × Disk) :=
  let x := c.buf b
  if x.busy = false then none
  else if x.valid = true ∧ x.dirty = false then none
  else if x.dev ≠ 0 ∧ havedisk1 = false then none
  else if x.dirty = true then
    some (c.setBuf b { x with valid := true, dirty := false },
      update disk (lba x.dev x.sector) x.data)
  else
    some (c.setBuf b { x with valid := true, data := disk (lba x.dev x.sector) }, disk)

/-- `bufcache_release` of a busy buffer. -/
def bufcacheRelease (c : Bcache) (b : ℕ) : Bcache :=
  { c.setBuf b { c.buf b with busy := false } with links := pushFront (takeOut c.links b) b }

/-! ### The list -/

theorem ring_pushFront {k : Links ℕ} {l : List ℕ} (hr : IsRing k nbuf l)
    (hb : b ∉ nbuf :: l) : IsRing (pushFront k b) nbuf (b :: l) := by
  have hbn : b ≠ nbuf := fun he => hb (by simp [he])
  have hnb : k.next nbuf ≠ b := fun he => hb (he ▸ hr.next_mem)
  refine hr.insert_front hb ?_ ?_ ?_ ?_ ?_ ?_
  · simp [pushFront]
  · simp [pushFront, hbn.symm, hnb.symm]
  · simp [pushFront, hbn]
  · simp [pushFront, hbn.symm]
  · intro a ha hab
    simp [pushFront, ha, hab]
  · intro a ha hab
    simp [pushFront, hbn.symm, ha, hab]

/-- The list after `bufcache_init`. -/
theorem ring_bufcacheInit : IsRing bufcacheInit.links nbuf (range nbuf).reverse := by
  unfold bufcacheInit
  dsimp only
  refine Memory.loop_induct (fun n k => IsRing k nbuf (range n).reverse) ?_ nbuf ?_
  · refine ⟨by simp, ?_⟩
    rw [range_zero, reverse_nil, nil_append, isChain_pair]
    exact ⟨rfl, rfl⟩
  · intro n hn k hk
    have := ring_pushFront hk (b := n) (by simp; omega)
    rw [range_succ, reverse_append]
    exact this

theorem ring_takeOut {k : Links ℕ} {l1 l2 : List ℕ} (hr : IsRing k nbuf (l1 ++ b :: l2)) :
    IsRing (takeOut k b) nbuf (l1 ++ l2) := by
  obtain ⟨hp, hn⟩ := hr.neighbours_ne
  refine hr.unlink ?_ ?_ ?_ ?_
  · simp [takeOut, hn.symm]
  · simp [takeOut]
  · intro a ha _
    simp [takeOut, hn.symm, ha]
  · intro a ha _
    simp [takeOut, ha]

/-- A released buffer moves to the front. -/
theorem ring_bufcacheRelease {l1 l2 : List ℕ} (hr : IsRing c.links nbuf (l1 ++ b :: l2)) :
    IsRing (c.bufcacheRelease b).links nbuf (b :: (l1 ++ l2)) := by
  refine ring_pushFront (ring_takeOut hr) ?_
  have hnd := hr.nodup
  rw [nodup_cons, nodup_middle, nodup_cons] at hnd
  simp only [mem_cons, not_or]
  refine ⟨fun he => hnd.1 (by simp [he]), hnd.2.1⟩

/-! ### `bufcache_get` -/

/-- Everything `bufcache_get` can do on a well-formed list: it finds the sector
and takes the buffer or sleeps on it, or it recycles a buffer that is neither
busy nor dirty, or there is none. -/
theorem bufcacheGet_cases {l : List ℕ} (hr : IsRing c.links nbuf l)
    (hl : l.length = nbuf) (dev sector : ℕ) :
    (∃ b ∈ l, (c.buf b).dev = dev ∧ (c.buf b).sector = sector ∧
      (((c.buf b).busy = false ∧
        c.bufcacheGet dev sector = .take b (c.setBuf b { c.buf b with busy := true })) ∨
      ((c.buf b).busy = true ∧ c.bufcacheGet dev sector = .sleep b))) ∨
    ((∀ b ∈ l, ¬ ((c.buf b).dev = dev ∧ (c.buf b).sector = sector)) ∧
      ((∃ b ∈ l, (c.buf b).busy = false ∧ (c.buf b).dirty = false ∧
        c.bufcacheGet dev sector
          = .take b (c.setBuf b ⟨true, false, false, dev, sector, (c.buf b).data⟩)) ∨
      ((∀ b ∈ l, (c.buf b).busy = true ∨ (c.buf b).dirty = true) ∧
        c.bufcacheGet dev sector = .noBuffers))) := by
  have hhead : nbuf ∉ l := (nodup_cons.mp hr.nodup).1
  have hfwd := hr.scan (fun b => decide ((c.buf b).dev = dev ∧ (c.buf b).sector = sector))
    (n := nbuf + 1) (by omega)
  have hbwd := hr.reverse.scan (fun b => decide ((c.buf b).busy = false ∧ (c.buf b).dirty = false))
    (n := nbuf + 1) (by rw [length_reverse]; omega)
  simp only [Links.swap] at hbwd
  unfold bufcacheGet
  rw [hfwd]
  cases hf : l.find? (fun b => decide ((c.buf b).dev = dev ∧ (c.buf b).sector = sector)) with
  | some b =>
    have hb := mem_of_find?_eq_some hf
    have hkey : (c.buf b).dev = dev ∧ (c.buf b).sector = sector := by
      simpa using find?_some hf
    have hne : b ≠ nbuf := fun he => hhead (he ▸ hb)
    refine .inl ⟨b, hb, hkey.1, hkey.2, ?_⟩
    simp only [Option.getD_some, if_pos hne]
    cases hbusy : (c.buf b).busy with
    | false => exact .inl ⟨rfl, by simp⟩
    | true => exact .inr ⟨rfl, by simp⟩
  | none =>
    have hno := find?_eq_none.mp hf
    refine .inr ⟨fun b hb => by simpa using hno b hb, ?_⟩
    simp only [Option.getD_none, ne_eq, not_true_eq_false, if_false, hbwd]
    cases hg : l.reverse.find?
        (fun b => decide ((c.buf b).busy = false ∧ (c.buf b).dirty = false)) with
    | some b =>
      have hb : b ∈ l := mem_reverse.mp (mem_of_find?_eq_some hg)
      have hfree : (c.buf b).busy = false ∧ (c.buf b).dirty = false := by
        simpa using find?_some hg
      have hne : b ≠ nbuf := fun he => hhead (he ▸ hb)
      exact .inl ⟨b, hb, hfree.1, hfree.2, by simp [hne]⟩
    | none =>
      refine .inr ⟨fun b hb => ?_, by simp⟩
      have := find?_eq_none.mp hg b (mem_reverse.mpr hb)
      simp at this
      cases hbusy : (c.buf b).busy with
      | true => exact .inl rfl
      | false => exact .inr (this hbusy)

/-! ### `ide_rw` -/

/-- A request for a dirty buffer writes it. -/
theorem ideRw_of_dirty
    (hd : (c.buf b).dirty = true) (h : ideRw havedisk1 c disk b = some (c', disk')) :
    c' = c.setBuf b { c.buf b with valid := true, dirty := false } ∧
      disk' = update disk (lba (c.buf b).dev (c.buf b).sector) (c.buf b).data := by
  unfold ideRw at h
  dsimp only at h
  split_ifs at h with h1 h2 h3
  · simp only [Option.some.injEq, Prod.mk.injEq] at h
    exact ⟨h.1.symm, h.2.symm⟩

/-- A request for any other buffer reads it. -/
theorem ideRw_of_clean
    (hd : (c.buf b).dirty = false) (h : ideRw havedisk1 c disk b = some (c', disk')) :
    c' = c.setBuf b { c.buf b with
        valid := true, data := disk (lba (c.buf b).dev (c.buf b).sector) } ∧ disk' = disk := by
  unfold ideRw at h
  dsimp only at h
  rw [if_neg (c := (c.buf b).dirty = true) (by simp [hd])] at h
  split_ifs at h with h1 h2 h3
  · simp only [Option.some.injEq, Prod.mk.injEq] at h
    exact ⟨h.1.symm, h.2.symm⟩

/-- A request for a busy buffer that has something to do only fails without a drive. -/
theorem ideRw_of_fail
    (hbusy : (c.buf b).busy = true) (hdo : (c.buf b).valid = true → (c.buf b).dirty = true)
    (h : ideRw havedisk1 c disk b = none) : havedisk1 = false := by
  unfold ideRw at h
  dsimp only at h
  split_ifs at h with h1 h2 h3
  · rw [hbusy] at h1
    cases h1
  · rw [hdo h2.1] at h2
    cases h2.2
  · exact h3.2

theorem ideRw_buf_other {i : ℕ}
    (h : ideRw havedisk1 c disk b = some (c', disk')) (hi : i ≠ b) : c'.buf i = c.buf i := by
  cases hd : (c.buf b).dirty with
  | true => rw [(ideRw_of_dirty hd h).1, setBuf_other c _ hi]
  | false => rw [(ideRw_of_clean hd h).1, setBuf_other c _ hi]

/-! ### The cache invariant -/

/-- The state of the cache between sections.  `modified` marks the buffers whose
holder has changed the data since it last wrote or logged them. -/
structure CacheInv (c : Bcache) (disk : Disk) (modified : ℕ → Bool) (l : List ℕ) : Prop where
  ring : IsRing c.links nbuf l
  perm : l.Perm (range nbuf)
  drive : ∀ b ∈ l, (c.buf b).dev = noDev ∨ OnDrive (c.buf b).dev (c.buf b).sector
  unused : ∀ b ∈ l, (c.buf b).dev = noDev →
    (c.buf b).busy = false ∧ (c.buf b).valid = false ∧ (c.buf b).dirty = false
  unique : ∀ b ∈ l, ∀ b' ∈ l, (c.buf b).dev = (c.buf b').dev →
    (c.buf b).sector = (c.buf b').sector → (c.buf b).dev ≠ noDev → b = b'
  modified_busy : ∀ b ∈ l, modified b = true → (c.buf b).busy = true
  dirty_valid : ∀ b ∈ l, (c.buf b).dirty = true → (c.buf b).valid = true
  clean : ∀ b ∈ l, (c.buf b).valid = true → (c.buf b).dirty = false → modified b = false →
    (c.buf b).data = disk (lba (c.buf b).dev (c.buf b).sector)

variable {c : Bcache} {disk : Disk} {modified : ℕ → Bool} {l : List ℕ}

theorem cacheInv_bufcacheInit (disk : Disk) :
    CacheInv bufcacheInit disk (fun _ => false) (range nbuf).reverse where
  ring := ring_bufcacheInit
  perm := reverse_perm _
  drive := fun _ _ => .inl rfl
  unused := fun _ _ _ => ⟨rfl, rfl, rfl⟩
  unique := fun _ _ _ _ _ _ h => absurd rfl h
  modified_busy := fun _ _ h => absurd h Bool.false_ne_true
  dirty_valid := fun _ _ h => absurd h Bool.false_ne_true
  clean := fun _ _ h => absurd h Bool.false_ne_true

theorem forall_setBuf {P : ℕ → Buf → Prop} {x : Buf} (hx : P b x)
    (h : ∀ i ∈ l, i ≠ b → P i (c.buf i)) : ∀ i ∈ l, P i ((c.setBuf b x).buf i) := by
  intro i hi
  by_cases hib : i = b
  · rwa [hib, setBuf_self]
  · rw [setBuf_other c x hib]
    exact h i hi hib

section

variable (h : CacheInv c disk modified l)
include h

theorem CacheInv.length_eq : l.length = nbuf := by
  rw [h.perm.length_eq, length_range]

theorem CacheInv.unmodified (hb : b ∈ l) (hfree : (c.buf b).busy = false) : modified b = false :=
  Bool.eq_false_iff.mpr fun hm => (nomatch hfree.symm.trans (h.modified_busy b hb hm))

theorem CacheInv.clean_of_invalid (hb : b ∈ l) (hv : (c.buf b).valid = false) :
    (c.buf b).dirty = false :=
  Bool.eq_false_iff.mpr fun hd => (nomatch hv.symm.trans (h.dirty_valid b hb hd))

theorem CacheInv.used_of_busy (hb : b ∈ l)
    (hbusy : (c.buf b).busy = true) : (c.buf b).dev ≠ noDev := by
  exact fun hd => (nomatch hbusy.symm.trans (h.unused b hb hd).1)

/-- A buffer gets a sector that no other buffer has, and its mark and this sector of the disk
may change.  The other buffers do not see it. -/
theorem CacheInv.put {x : Buf} {modified' : ℕ → Bool} (hon : OnDrive x.dev x.sector)
    (hnew : ∀ i ∈ l, i ≠ b → ¬ ((c.buf i).dev = x.dev ∧ (c.buf i).sector = x.sector))
    (hdisk : ∀ a, a ≠ lba x.dev x.sector → disk' a = disk a)
    (hmod : ∀ i, i ≠ b → modified' i = modified i)
    (hbusy : modified' b = true → x.busy = true) (hdirty : x.dirty = true → x.valid = true)
    (hclean : x.valid = true → x.dirty = false → modified' b = false →
      x.data = disk' (lba x.dev x.sector)) :
    CacheInv (c.setBuf b x) disk' modified' l := by
  refine ⟨h.ring, h.perm, ?_, ?_, fun i hi j hj => ?_, ?_, ?_, ?_⟩
  · exact forall_setBuf (P := fun _ y => y.dev = noDev ∨ OnDrive y.dev y.sector) (.inr hon)
      fun i hi _ => h.drive i hi
  · exact forall_setBuf (P := fun _ y => y.dev = noDev → y.busy = false ∧ y.valid = false ∧
      y.dirty = false) (absurd · hon.used) fun i hi _ => h.unused i hi
  · by_cases hib : i = b <;> by_cases hjb : j = b
    · exact fun _ _ _ => hib.trans hjb.symm
    · rw [hib, setBuf_self, setBuf_other c x hjb]
      exact fun hd hs => absurd ⟨hd.symm, hs.symm⟩ (hnew j hj hjb)
    · rw [hjb, setBuf_self, setBuf_other c x hib]
      exact fun hd hs => absurd ⟨hd, hs⟩ (hnew i hi hib)
    · rw [setBuf_other c x hib, setBuf_other c x hjb]
      exact h.unique i hi j hj
  · exact forall_setBuf (P := fun i y => modified' i = true → y.busy = true) hbusy
      fun i hi hib hm => h.modified_busy i hi ((hmod i hib).symm.trans hm)
  · exact forall_setBuf (P := fun _ y => y.dirty = true → y.valid = true) hdirty
      fun i hi _ => h.dirty_valid i hi
  · refine forall_setBuf (P := fun i y => y.valid = true → y.dirty = false →
      modified' i = false → y.data = disk' (lba y.dev y.sector)) hclean fun i hi hib hv hd hm => ?_
    -- a valid buffer is in use, and then its sector is another one
    have hiu : (c.buf i).dev ≠ noDev := fun hn => (nomatch hv.symm.trans (h.unused i hi hn).2.1)
    rw [hmod i hib] at hm
    rw [hdisk, h.clean i hi hv hd hm]
    exact fun he => hnew i hi hib (lba_inj ((h.drive i hi).resolve_left hiu) hon he)

/-- Changing a used buffer, its mark and its own sector on the disk. -/
theorem CacheInv.setBuf (hb : b ∈ l)
    (hused : (c.buf b).dev ≠ noDev) {x : Buf} {modified' : ℕ → Bool}
    (hdev : x.dev = (c.buf b).dev) (hsec : x.sector = (c.buf b).sector)
    (hdisk : ∀ a, a ≠ lba x.dev x.sector → disk' a = disk a)
    (hmod : ∀ i, i ≠ b → modified' i = modified i)
    (hbusy : modified' b = true → x.busy = true) (hdirty : x.dirty = true → x.valid = true)
    (hclean : x.valid = true → x.dirty = false → modified' b = false →
      x.data = disk' (lba x.dev x.sector)) :
    CacheInv (c.setBuf b x) disk' modified' l := by
  refine h.put ?_ (fun i hi hib he => ?_) hdisk hmod hbusy hdirty hclean <;> rw [hdev, hsec] at *
  · exact (h.drive b hb).resolve_left hused
  · exact hib (h.unique i hi b hb he.1 he.2 (he.1 ▸ hused))

/-- Recycling: a buffer takes over a sector that no buffer has. -/
theorem CacheInv.recycle {dev sector : ℕ} (hon : OnDrive dev sector)
    (hnew : ∀ i ∈ l, ¬ ((c.buf i).dev = dev ∧ (c.buf i).sector = sector)) :
    CacheInv (c.setBuf b ⟨true, false, false, dev, sector, (c.buf b).data⟩) disk modified l :=
  h.put hon (fun i hi _ => hnew i hi) (fun _ _ => rfl) (fun _ _ => rfl) (fun _ => rfl) nofun nofun

/-- Releasing a buffer that has no unwritten change. -/
theorem CacheInv.release (hb : b ∈ l) (hused : (c.buf b).dev ≠ noDev) (hm : modified b = false) :
    ∃ l', CacheInv (c.bufcacheRelease b) disk modified l' := by
  have h' : CacheInv (c.setBuf b { c.buf b with busy := false }) disk modified l :=
    h.setBuf hb hused rfl rfl (fun _ _ => rfl) (fun _ _ => rfl) (fun ht => by rw [hm] at ht; cases ht)
      (h.dirty_valid b hb) (h.clean b hb)
  obtain ⟨l1, l2, rfl⟩ := append_of_mem hb
  have hmem : ∀ i, i ∈ b :: (l1 ++ l2) → i ∈ l1 ++ b :: l2 := fun i => perm_middle.mem_iff.mpr
  exact ⟨b :: (l1 ++ l2), ring_bufcacheRelease h.ring, perm_middle.symm.trans h.perm,
    fun i hi => h'.drive i (hmem i hi), fun i hi => h'.unused i (hmem i hi),
    fun i hi j hj => h'.unique i (hmem i hi) j (hmem j hj),
    fun i hi => h'.modified_busy i (hmem i hi), fun i hi => h'.dirty_valid i (hmem i hi),
    fun i hi => h'.clean i (hmem i hi)⟩

end

end Bcache

end Mcertikos
