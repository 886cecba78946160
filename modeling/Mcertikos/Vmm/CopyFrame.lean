/-
What a copy between a kernel buffer and user memory reads and leaves alone.

From an isolated state a copy touches, on the user side, a data page of the
process, frame `0` (when `alloc_page` failed) or a frame outside of the user range
(when the address wraps), never a page table, an identity table or the kernel
buffer (`Isolated.walk_reach`).

* `Isolated.ptCopy` — so every copy keeps isolation;
* `copyin_sameOff`, `copyout_sameOff` — two runs that differ in a kernel buffer only:
  a copy into the buffer makes the bytes it fills equal, a copy out of equal bytes
  keeps the rest equal;
* `Isolated.copyin_byte`, `Isolated.copyout_byte` — the bytes of a user page the copy
  is not for stay.
-/
import Mcertikos.Vmm.UserCopy

namespace Mcertikos

open Memory AllocTable

/-- A kernel buffer above the first page frame, as the identity tables are. -/
structure KernelImage.CopyBuffer (K : KernelImage) (kva len : ℕ) : Prop where
  buffer : K.Buffer kva len
  high : 4096 ≤ kva
  idptbl : 4096 ≤ K.idptbl

theorem KernelImage.CopyBuffer.rest {K : KernelImage} {kva len n : ℕ} (h : K.CopyBuffer kva len)
    (hn : n ≤ len) : K.CopyBuffer ((kva + n) % 2 ^ 32) (len - n) := by
  obtain ⟨⟨h1, h2⟩, h3, h4⟩ := h
  unfold vmUserLo at h1
  have hmod : (kva + n) % 2 ^ 32 = kva + n := Nat.mod_eq_of_lt (by omega)
  rw [hmod]
  refine ⟨⟨?_, ?_⟩, ?_, h4⟩
  · unfold vmUserLo
    omega
  · omega
  · omega

namespace Vm

variable {K : KernelImage} {s s' : Vm} {pid : ℕ}

/-- Where the user address of a round may be: at most one page is left after a
wrap. -/
def RoundOk (uva len : ℕ) : Prop :=
  len ≤ 4096 ∧ (vmUserLo ≤ uva ∧ uva < 2 ^ 32 ∨ uva + len ≤ 4096)

theorem RoundOk.lt {uva len : ℕ} (h : RoundOk uva len) : uva < 2 ^ 32 := by
  rcases h.2 with hlt | hlt <;> omega

theorem RoundOk.next {uva len n : ℕ} (h : RoundOk uva len) (hn : n ≤ len)
    (hpage : uva % 4096 + n ≤ 4096) : RoundOk ((uva + n) % 2 ^ 32) (len - n) := by
  obtain ⟨hlen, h⟩ := h
  refine ⟨by omega, ?_⟩
  rcases h with ⟨hlo, hhi⟩ | h
  · by_cases hwrap : uva + n < 2 ^ 32
    · rw [Nat.mod_eq_of_lt hwrap]
      exact .inl ⟨by omega, hwrap⟩
    · -- the page ends at the end of the address space
      have he : uva + n = 2 ^ 32 := by omega
      rw [he, Nat.mod_self]
      exact .inr (by omega)
  · rw [Nat.mod_eq_of_lt (by omega)]
    exact .inr (by omega)

theorem roundOk_of_accepted {uva kva len : ℕ} (hlen : len ≤ 4096) (huva : uva < 2 ^ 32)
    (h : ¬ copyRejected uva kva len) : RoundOk uva len := by
  unfold copyRejected at h
  push Not at h
  exact ⟨hlen, .inl ⟨h.1.1, huva⟩⟩

/-! ### Isolation is kept -/

theorem Isolated.table_ne_zero (h : s.Isolated K) {p d : ℕ} (hu : UserSlot p d)
    (hd : s.getPdirEntry p d ≠ 0) : 0 ≠ s.getPdirEntry p d / 4096 := by
  have hr := (h.table_range hu hd).1
  unfold userLoPi at hr
  omega

/-- **The frame a round uses** is not one of the kernel's below the user range, and
holds no page table. -/
theorem Isolated.walk_reach (h : s.Isolated K) (hp : UserPid pid) {uva len : ℕ}
    (hr : RoundOk uva len) (hlen : len ≠ 0) :
    (s.walk pid uva).2.1.Isolated K ∧
    ((s.walk pid uva).1 / 4096 = 0 ∨
      0x40000 ≤ (s.walk pid uva).1 / 4096 ∧ (s.walk pid uva).1 / 4096 < 0x100000) ∧
    ∀ p d, UserSlot p d → (s.walk pid uva).2.1.getPdirEntry p d ≠ 0 →
      (s.walk pid uva).1 / 4096 ≠ (s.walk pid uva).2.1.getPdirEntry p d / 4096 := by
  by_cases hin : vmUserLo ≤ uva ∧ uva < vmUserHi
  · have hu := userSlot_of_va hp hin.1 hin.2
    obtain ⟨h1, hzero⟩ := h.walk hu
    refine ⟨h1, ?_⟩
    by_cases hok : (s.walk pid uva).2.2 = some magicNumber
    · rw [hzero hok]
      exact ⟨.inl rfl, fun p d hu' hd => by simpa using h1.table_ne_zero hu' hd⟩
    · have hodd := walk_present hok
      have hn := names_of_va (s := (s.walk pid uva).2.1) hu (by rw [walk_entry]; omega)
      rw [walk_entry] at hn
      obtain ⟨hlo, hhi⟩ := h1.norm_range _ (h1.named _ _ hn).1
      unfold userLoPi at hlo
      unfold userHiPi at hhi
      refine ⟨.inr ⟨by omega, by omega⟩, fun p d hu' hd he => ?_⟩
      exact absurd (h1.distinct (.table p d) _ _ ⟨hu', hd, he.symm⟩ hn) (by simp)
  · -- the identity map
    have h32 := hr.lt
    have hout : uva < vmUserLo ∨ vmUserHi ≤ uva := by omega
    obtain ⟨hodd, hframe⟩ := h.kernel_entry hp.2 hout h32
    rw [walk_of_present hodd]
    dsimp only
    rw [hframe]
    unfold vmUserLo vmUserHi at hin
    refine ⟨h, ?_, fun p d hu' hd => ?_⟩
    · rcases hr.2 with hlt | hlt
      · exact .inr ⟨by unfold vmUserLo at hlt; omega, by omega⟩
      · exact .inl (by omega)
    · have hrange := h.table_range hu' hd
      unfold userLoPi userHiPi at hrange
      rcases hr.2 with hlt | hlt
      · unfold vmUserLo at hlt
        omega
      · omega

/-- A `memcpy` whose target bytes hold no page table and no identity table keeps
isolation. -/
theorem Isolated.memcpy (h : s.Isolated K) {dst src n : ℕ} (hdst : dst + n ≤ 2 ^ 32)
    (htable : ∀ x, dst ≤ x → x < dst + n → ∀ p d, UserSlot p d → s.getPdirEntry p d ≠ 0 →
      x / 4096 ≠ s.getPdirEntry p d / 4096)
    (hid : ∀ x, dst ≤ x → x < dst + n → ¬ (K.idptbl ≤ x ∧ x < K.idptbl + 1024 * 4096)) :
    Isolated K { s with mem := Mcertikos.memcpy s.mem dst src n } := by
  refine h.of_mem ?_ ?_
  · intro p d hu hd x hx
    refine memcpy_of_outside hdst ?_
    by_contra hin
    push Not at hin
    exact htable x hin.1 hin.2 p d hu hd hx
  · intro x hx hx'
    refine memcpy_of_outside hdst ?_
    by_contra hin
    push Not at hin
    exact hid x hin.1 hin.2 ⟨hx, hx'⟩

/-- One round keeps isolation. -/
theorem Isolated.round (h : s.Isolated K) (hp : UserPid pid) {dir : CopyDir}
    {uva kva len : ℕ} (hr : RoundOk uva len) (hlen : len ≠ 0) (hbuf : K.CopyBuffer kva len) :
    (Vm.transfer dir (s.walk pid uva).2.1 ((s.walk pid uva).1 / 4096 * 4096 + uva % 4096) kva
      (chunk ((s.walk pid uva).1 / 4096 * 4096 + uva % 4096) len)).Isolated K := by
  obtain ⟨h1, hframe, htable⟩ := h.walk_reach hp hr hlen
  obtain ⟨hle, hpage⟩ := chunk_le ((s.walk pid uva).1 / 4096 * 4096 + uva % 4096) len
  obtain ⟨⟨hb, hb'⟩, hhigh, hidp⟩ := hbuf
  have hlow := K.low
  unfold vmUserLo at hb hlow
  cases dir with
  | copyin =>
    refine h1.memcpy (by omega) ?_ ?_
    · intro x hx hx' p d hu hd
      have hrange := (h1.table_range hu hd).1
      unfold userLoPi at hrange
      omega
    · intro x hx hx'
      omega
  | copyout =>
    refine h1.memcpy (by omega) ?_ ?_
    · intro x hx hx' p d hu hd
      have hne := htable p d hu hd
      omega
    · intro x hx hx'
      omega

/-- **Every copy keeps isolation**, also one that wraps or runs out of pages. -/
theorem Isolated.copyLoop (hp : UserPid pid) {dir : CopyDir} (k : ℕ) :
    ∀ {s : Vm} {uva kva len copied : ℕ}, s.Isolated K → RoundOk uva len → K.CopyBuffer kva len →
      (Vm.copyLoop dir pid k s uva kva len copied).2.1.Isolated K := by
  induction k with
  | zero => exact fun h _ _ => h
  | succ k ih =>
    intro s uva kva len copied h hr hbuf
    by_cases hlen : len = 0
    · rw [Vm.copyLoop, if_pos hlen]
      exact h
    · rw [copyLoop_succ hlen]
      obtain ⟨hle, hpage⟩ := chunk_le ((s.walk pid uva).1 / 4096 * 4096 + uva % 4096) len
      exact ih (h.round hp hr hlen hbuf) (hr.next hle (by omega)) (hbuf.rest hle)

theorem Isolated.ptCopy (h : s.Isolated K) (hp : UserPid pid) {dir : CopyDir}
    {uva kva len : ℕ} (huva : uva < 2 ^ 32) (hlen : len ≤ 4096) (hbuf : K.CopyBuffer kva len) :
    (s.ptCopy dir pid uva kva len).2.1.Isolated K := by
  unfold Vm.ptCopy
  by_cases hrej : copyRejected uva kva len
  · rw [if_pos hrej]
    exact h
  · rw [if_neg hrej]
    exact Isolated.copyLoop hp len h (roundOk_of_accepted hlen huva hrej) hbuf

/-! ### Two runs -/

/-- The same state with other bytes in `[lo, hi)`. -/
def overlay (lo hi : ℕ) (m : Mem) (s : Vm) : Vm :=
  { s with mem := fun x => if lo ≤ x ∧ x < hi then m x else s.mem x }

/-- The two states differ at most in the bytes of `[lo, hi)`. -/
def SameOff (lo hi : ℕ) (s s' : Vm) : Prop := ∃ m, s' = overlay lo hi m s

theorem sameOff_iff {lo hi : ℕ} : SameOff lo hi s s' ↔
    s'.pmm = s.pmm ∧ s'.PDirPool = s.PDirPool ∧ ∀ x, ¬ (lo ≤ x ∧ x < hi) → s'.mem x = s.mem x := by
  constructor
  · rintro ⟨m, rfl⟩
    exact ⟨rfl, rfl, fun x hx => if_neg hx⟩
  · rintro ⟨hpmm, hdir, hmem⟩
    refine ⟨s'.mem, ?_⟩
    obtain ⟨p, d, m⟩ := s'
    dsimp only at hpmm hdir hmem
    subst hpmm hdir
    unfold overlay
    congr 1
    funext x
    by_cases hx : lo ≤ x ∧ x < hi
    · rw [if_pos hx]
    · rw [if_neg hx, hmem x hx]

theorem SameOff.eq_of_empty {lo : ℕ} (h : SameOff lo lo s s') : s' = s := by
  obtain ⟨m, rfl⟩ := h
  unfold overlay
  congr 1
  funext x
  rw [if_neg (by omega)]

section Overlay

variable {lo hi : ℕ} {m : Mem}

theorem overlay_write32 {a : ℕ} (v : ℕ) (ha : hi ≤ a) (s : Vm) :
    { overlay lo hi m s with mem := write32 (overlay lo hi m s).mem a v }
      = overlay lo hi m { s with mem := write32 s.mem a v } := by
  unfold overlay
  dsimp only
  congr 1
  funext x
  by_cases hx : lo ≤ x ∧ x < hi
  · rw [if_pos hx, write32_of_outside (by omega), if_pos hx]
  · rw [if_neg hx]
    unfold write32
    dsimp only
    rw [if_neg hx]

theorem overlay_rmvPtblEntry {p d t : ℕ} (ha : hi ≤ s.ptblAddr p d t) :
    (overlay lo hi m s).rmvPtblEntry p d t = overlay lo hi m (s.rmvPtblEntry p d t) :=
  overlay_write32 0 ha s

theorem overlay_setPtblEntryByVa {p va : ℕ} (page perm : ℕ)
    (ha : hi ≤ s.ptblAddr p (va / (4096 * 1024)) (va / 4096 % 1024)) :
    (overlay lo hi m s).setPtblEntryByVa p va page perm
      = overlay lo hi m (s.setPtblEntryByVa p va page perm) :=
  overlay_write32 _ ha s

theorem overlay_loop_rmvPtblEntry {p d : ℕ} (ha : hi ≤ s.ptblAddr p d 0) (n : ℕ) :
    loop (fun i t => t.rmvPtblEntry p d i) n (overlay lo hi m s)
      = overlay lo hi m (loop (fun i t => t.rmvPtblEntry p d i) n s) := by
  induction n with
  | zero => rfl
  | succ n ih =>
    obtain ⟨mem', hloop, -, -⟩ := loop_rmvPtblEntry s p d n
    have haddr : hi ≤ (loop (fun i t => t.rmvPtblEntry p d i) n s).ptblAddr p d n := by
      have hn : hi ≤ s.ptblAddr p d n := by
        rw [ptblAddr_eq]
        exact ha.trans (Nat.le_add_right _ _)
      rw [hloop]
      exact hn
    rw [loop, loop, ih, overlay_rmvPtblEntry haddr]

/-- The page tables of an isolated state lie above the kernel's memory. -/
theorem Isolated.le_ptblAddr (h : s.Isolated K) {p d : ℕ} (hu : UserSlot p d)
    (hd : s.getPdirEntry p d ≠ 0) (t : ℕ) : vmUserLo ≤ s.ptblAddr p d t := by
  have hr := (h.table_range hu hd).1
  unfold getPdirEntry userLoPi at hr
  unfold vmUserLo ptblAddr
  omega

theorem Isolated.overlay_allocPtbl (h : s.Isolated K) (hhi : hi ≤ vmUserLo) {p va : ℕ} :
    (overlay lo hi m s).allocPtbl p va
      = ((s.allocPtbl p va).1, overlay lo hi m (s.allocPtbl p va).2) := by
  obtain ⟨h1, hfresh, -⟩ := h.containerAlloc p
  have hca : (overlay lo hi m s).containerAlloc p
      = ((s.containerAlloc p).1, overlay lo hi m (s.containerAlloc p).2) := rfl
  rw [allocPtbl_eq, allocPtbl_eq, hca]
  dsimp only
  by_cases h0 : (s.containerAlloc p).1 = 0
  · rw [if_neg (not_not.mpr h0), if_neg (not_not.mpr h0)]
  · rw [if_pos h0, if_pos h0]
    have hrange := h1.norm_range _ (hfresh h0).1
    have haddr : hi ≤ ((s.containerAlloc p).2.setPdirEntryByVa p va
        (s.containerAlloc p).1).ptblAddr p (va / (4096 * 1024)) 0 := by
      have hg := getPdirEntry_put (s.containerAlloc p).2 p (va / (4096 * 1024))
        (((s.containerAlloc p).1 * 4096 + 7) % 2 ^ 32) p (va / (4096 * 1024))
      rw [if_pos ⟨rfl, rfl⟩] at hg
      unfold getPdirEntry at hg
      unfold userLoPi userHiPi at hrange
      unfold vmUserLo at hhi
      unfold setPdirEntryByVa setPdirEntry ptblAddr
      omega
    exact congrArg (Prod.mk _) (overlay_loop_rmvPtblEntry haddr 1024)

theorem Isolated.overlay_allocPage (h : s.Isolated K) (hhi : hi ≤ vmUserLo) {p va : ℕ}
    (hu : UserSlot p (va / (4096 * 1024))) :
    (overlay lo hi m s).allocPage p va 7
      = ((s.allocPage p va 7).1, overlay lo hi m (s.allocPage p va 7).2) := by
  obtain ⟨h1, -, -⟩ := h.containerAlloc p
  have hca : (overlay lo hi m s).containerAlloc p
      = ((s.containerAlloc p).1, overlay lo hi m (s.containerAlloc p).2) := rfl
  unfold Vm.allocPage
  rw [hca]
  dsimp only
  generalize (s.containerAlloc p).1 = page at *
  generalize (s.containerAlloc p).2 = s1 at *
  by_cases h0 : page = 0
  · rw [if_pos h0, if_pos h0]
  rw [if_neg h0, if_neg h0]
  by_cases hd : s1.getPdirEntryByVa p va = 0
  · have hd' : (overlay lo hi m s1).getPdirEntryByVa p va = 0 := hd
    rw [mapPage_of_no_table page 7 hd, mapPage_of_no_table page 7 hd', h1.overlay_allocPtbl hhi]
    dsimp only
    by_cases hr : (s1.allocPtbl p va).1 ≠ 0 ∧ (s1.allocPtbl p va).1 ≠ magicNumber
    · rw [if_pos hr, if_pos hr]
      obtain ⟨h2, hentry, -⟩ := h1.allocPtbl hu hd
      rw [overlay_setPtblEntryByVa page 7 (hhi.trans (h2.le_ptblAddr hu (hentry hr.1) _))]
    · rw [if_neg hr, if_neg hr]
  · have hd' : (overlay lo hi m s1).getPdirEntryByVa p va ≠ 0 := hd
    rw [mapPage_of_table page 7 hd, mapPage_of_table page 7 hd',
      overlay_setPtblEntryByVa page 7 (hhi.trans (h1.le_ptblAddr hu hd _))]

/-- The bytes of a kernel buffer are no part of a page table. -/
theorem Isolated.overlay_entry (h : s.Isolated K) (hp : UserPid pid) {va : ℕ}
    (hva : va < 2 ^ 32) (hbuf : K.Buffer lo (hi - lo)) (hle : lo ≤ hi) :
    (overlay lo hi m s).getPtblEntryByVa pid va = s.getPtblEntryByVa pid va := by
  refine getPtblEntryByVa_congr fun hd x hx => if_neg fun hin => ?_
  obtain ⟨hb, hb'⟩ := hbuf
  by_cases hslot : 256 ≤ va / (4096 * 1024) ∧ va / (4096 * 1024) < 960
  · have hlo := (h.table_range ⟨hp.1, hp.2, hslot.1, hslot.2⟩ hd).1
    unfold userLoPi at hlo
    unfold vmUserLo at hb
    omega
  · have hk := h.kernel pid (va / (4096 * 1024)) hp.2 (by omega)
    have hal := K.aligned
    omega

/-- **A walk does not see a kernel buffer.** -/
theorem Isolated.overlay_walk (h : s.Isolated K) (hp : UserPid pid) {uva : ℕ}
    (huva : uva < 2 ^ 32) (hbuf : K.Buffer lo (hi - lo)) (hle : lo ≤ hi) :
    (overlay lo hi m s).walk pid uva
      = ((s.walk pid uva).1, overlay lo hi m (s.walk pid uva).2.1, (s.walk pid uva).2.2) := by
  have hhi : hi ≤ vmUserLo := by
    have := hbuf.1
    omega
  unfold Vm.walk
  rw [h.overlay_entry hp huva hbuf hle]
  by_cases he : s.getPtblEntryByVa pid uva % 2 = 0
  · rw [if_pos he, if_pos he]
    -- only a user page can be missing
    have hin : vmUserLo ≤ uva ∧ uva < vmUserHi := by
      by_contra hout
      have := (h.kernel_entry hp.2 (by omega : uva < vmUserLo ∨ vmUserHi ≤ uva) huva).1
      omega
    have hu := userSlot_of_va hp hin.1 hin.2
    rw [h.overlay_allocPage hhi hu]
    dsimp only
    rw [(h.allocPage hu (by norm_num) (by norm_num)).overlay_entry hp huva hbuf hle]
  · rw [if_neg he, if_neg he]

end Overlay

theorem memcpy_inside {m : Mem} {dst src n i : ℕ} (hdst : dst + n ≤ 2 ^ 32) (hsrc : src + n ≤ 2 ^ 32)
    (hi : i < n) : Mcertikos.memcpy m dst src n (dst + i) = m (src + i) := by
  have hidx : (dst + i + 2 ^ 32 - dst) % 2 ^ 32 = i := by
    have he : dst + i + 2 ^ 32 - dst = i + 2 ^ 32 := by omega
    rw [he, Nat.add_mod_right, Nat.mod_eq_of_lt (by omega)]
  unfold Mcertikos.memcpy
  dsimp only
  rw [hidx, if_pos ⟨by omega, hi⟩, Nat.mod_eq_of_lt (by omega)]

/-- A `memcpy` in two states: the bytes that may differ afterwards. -/
theorem SameOff.memcpy {lo hi lo' dst src n : ℕ} (h : SameOff lo hi s s') (hdst : dst + n ≤ 2 ^ 32)
    (hsrc : src + n ≤ 2 ^ 32)
    (hsame : ∀ i, i < n → ¬ (lo ≤ src + i ∧ src + i < hi))
    (hlo : ∀ x, lo ≤ x → x < lo' → dst ≤ x ∧ x < dst + n) :
    SameOff lo' hi { s with mem := Mcertikos.memcpy s.mem dst src n }
      { s' with mem := Mcertikos.memcpy s'.mem dst src n } := by
  rw [sameOff_iff] at h ⊢
  obtain ⟨hpmm, hdir, hmem⟩ := h
  refine ⟨hpmm, hdir, fun x hx => ?_⟩
  dsimp only
  by_cases hin : dst ≤ x ∧ x < dst + n
  · obtain ⟨i, rfl⟩ := Nat.exists_eq_add_of_le hin.1
    have hi : i < n := by omega
    rw [memcpy_inside hdst hsrc hi, memcpy_inside hdst hsrc hi]
    exact hmem _ (hsame i hi)
  · rw [memcpy_of_outside hdst (by omega), memcpy_of_outside hdst (by omega)]
    refine hmem x fun hlx => hin (hlo x hlx.1 ?_)
    by_contra hge
    exact hx ⟨by omega, hlx.2⟩

/-- The bytes of a round on the user side, in the terms of `walk_reach`. -/
theorem chunk_bytes {e : ℕ} (uva len : ℕ)
    (hframe : e / 4096 = 0 ∨ 0x40000 ≤ e / 4096 ∧ e / 4096 < 0x100000) :
    e / 4096 * 4096 + uva % 4096 + chunk (e / 4096 * 4096 + uva % 4096) len ≤ 2 ^ 32 ∧
    ∀ i, i < chunk (e / 4096 * 4096 + uva % 4096) len →
      e / 4096 * 4096 + uva % 4096 + i < 4096 ∨ vmUserLo ≤ e / 4096 * 4096 + uva % 4096 + i := by
  obtain ⟨-, hpage⟩ := chunk_le (e / 4096 * 4096 + uva % 4096) len
  unfold vmUserLo
  constructor
  · omega
  · intro i hi
    omega

variable {hi : ℕ}

/-- A walk does not write to a kernel buffer. -/
theorem Isolated.walk_buffer (h : s.Isolated K) (hp : UserPid pid)
    {uva : ℕ} (huva : uva < 2 ^ 32) {x : ℕ} (hx : K.Buffer x 1) : (s.walk pid uva).2.1.mem x = s.mem x := by
  have hself : overlay x (x + 1) s.mem s = s := by
    unfold overlay
    congr 1
    funext y
    by_cases hy : x ≤ y ∧ y < x + 1
    · rw [if_pos hy]
    · rw [if_neg hy]
  have hwalk := h.overlay_walk hp (m := s.mem) huva
    (by rwa [Nat.add_sub_cancel_left] : K.Buffer x (x + 1 - x)) (Nat.le_succ x)
  rw [hself] at hwalk
  have hmem : (s.walk pid uva).2.1.mem x = (overlay x (x + 1) s.mem (s.walk pid uva).2.1).mem x := by
    conv_lhs => rw [hwalk]
  rw [hmem]
  exact if_pos ⟨le_refl x, Nat.lt_succ_self x⟩

/-- **Two copies into the kernel** from states that differ in a kernel buffer: the bytes copied
are the same, and no others become different. -/
theorem Isolated.copyin_twins (hp : UserPid pid) {lo : ℕ} (k : ℕ) :
    ∀ {s s' : Vm} {uva kva len copied : ℕ}, s.Isolated K → SameOff lo hi s s' → lo ≤ kva →
      kva + len ≤ hi → RoundOk uva len → K.CopyBuffer lo (hi - lo) → len ≤ k →
      SameOff lo hi (Vm.copyLoop .copyin pid k s uva kva len copied).2.1
        (Vm.copyLoop .copyin pid k s' uva kva len copied).2.1 ∧
      ∀ x, kva ≤ x ∧ x < kva + len ∨ s'.mem x = s.mem x →
        (Vm.copyLoop .copyin pid k s' uva kva len copied).2.1.mem x =
          (Vm.copyLoop .copyin pid k s uva kva len copied).2.1.mem x := by
  induction k with
  | zero =>
    intro s s' uva kva len copied _ hs _ _ _ _ hk
    exact ⟨hs, fun x hx => hx.resolve_left (by omega)⟩
  | succ k ih =>
    intro s s' uva kva len copied h hs hlo hle hr hbuf hk
    by_cases hlen : len = 0
    · rw [Vm.copyLoop, if_pos hlen, Vm.copyLoop, if_pos hlen]
      exact ⟨hs, fun x hx => hx.resolve_left (by omega)⟩
    have h32 := hr.lt
    have hb := hbuf.buffer
    have hhigh := hbuf.high
    unfold KernelImage.Buffer vmUserLo at hb
    -- both runs use the same frame
    obtain ⟨m, rfl⟩ := hs
    rw [copyLoop_succ hlen, copyLoop_succ hlen, h.overlay_walk hp h32 hbuf.buffer (by omega)]
    dsimp only
    obtain ⟨-, hframe, -⟩ := h.walk_reach hp hr hlen
    have hround := @Isolated.round K s pid h hp .copyin uva kva len hr hlen
      ⟨⟨by unfold vmUserLo; omega, by omega⟩, by omega, hbuf.idptbl⟩
    obtain ⟨hpa, hbytes⟩ := chunk_bytes uva len hframe
    set pa := (s.walk pid uva).1 / 4096 * 4096 + uva % 4096
    obtain ⟨hle', hpage⟩ := chunk_le pa len
    have hpos := chunk_pos pa hlen
    set s1 := (s.walk pid uva).2.1
    have hmod : (kva + chunk pa len) % 2 ^ 32 = kva + chunk pa len := Nat.mod_eq_of_lt (by omega)
    have hsrc : ∀ i, i < chunk pa len → ¬ (lo ≤ pa + i ∧ pa + i < hi) := fun i hi' => by
      have hby := hbytes i hi'
      unfold vmUserLo at hby
      omega
    have hnext : SameOff lo hi (Vm.transfer .copyin s1 pa kva (chunk pa len))
        (Vm.transfer .copyin (overlay lo hi m s1) pa kva (chunk pa len)) :=
      SameOff.memcpy ⟨m, rfl⟩ (by omega) hpa hsrc fun x hx hx' => by omega
    rw [hmod]
    obtain ⟨hsame, hequal⟩ := @ih _ _ ((uva + chunk pa len) % 2 ^ 32) (kva + chunk pa len)
      (len - chunk pa len) (copied + chunk pa len) hround hnext (by omega) (by omega)
      (hr.next hle' (by omega)) hbuf (by omega)
    refine ⟨hsame, fun x hx => hequal x ?_⟩
    by_cases hin : kva ≤ x ∧ x < kva + chunk pa len
    · -- a byte of this round
      obtain ⟨i, rfl⟩ := Nat.exists_eq_add_of_le hin.1
      have hcopied : ∀ t : Vm, (Vm.transfer .copyin t pa kva (chunk pa len)).mem (kva + i)
          = t.mem (pa + i) := fun t => memcpy_inside (by omega) hpa (by omega)
      rw [hcopied, hcopied]
      exact .inr (if_neg (hsrc i (by omega)))
    · refine hx.imp (fun hx => by omega) fun hx => ?_
      have hkept : ∀ t : Vm, (Vm.transfer .copyin t pa kva (chunk pa len)).mem x = t.mem x :=
        fun t => memcpy_of_outside (by omega) (by omega)
      rw [hkept, hkept]
      by_cases hxb : lo ≤ x ∧ x < hi
      · rw [h.walk_buffer hp h32 ⟨by unfold vmUserLo; omega, by omega⟩]
        exact (if_pos hxb).trans ((if_pos hxb).symm.trans hx)
      · exact if_neg hxb

/-- **A copy into the buffer makes the bytes it fills equal.** -/
theorem Isolated.copyin_sameOff (hp : UserPid pid) {uva kva len copied : ℕ}
    (h : s.Isolated K) (hs : SameOff kva hi s s') (hle : kva + len ≤ hi) (hr : RoundOk uva len)
    (hbuf : K.CopyBuffer kva (hi - kva)) :
    SameOff (kva + len) hi (Vm.copyLoop .copyin pid len s uva kva len copied).2.1
      (Vm.copyLoop .copyin pid len s' uva kva len copied).2.1 := by
  obtain ⟨hsame, hequal⟩ := @Isolated.copyin_twins K pid hi hp kva len s s' uva kva len copied h
    hs (le_refl _) hle hr hbuf (le_refl _)
  rw [sameOff_iff] at hs hsame ⊢
  refine ⟨hsame.1, hsame.2.1, fun x hx => hequal x ?_⟩
  by_cases hin : kva ≤ x ∧ x < kva + len
  · exact .inl hin
  · exact .inr (hs.2.2 x (by omega))

/-- **A copy out of equal bytes** keeps the rest equal. -/
theorem Isolated.copyout_sameOff (hp : UserPid pid) {lo : ℕ} (k : ℕ) :
    ∀ {s s' : Vm} {uva kva len copied : ℕ}, s.Isolated K → SameOff lo hi s s' → kva + len ≤ lo →
      lo ≤ hi → RoundOk uva len → K.CopyBuffer kva (hi - kva) →
      SameOff lo hi (Vm.copyLoop .copyout pid k s uva kva len copied).2.1
        (Vm.copyLoop .copyout pid k s' uva kva len copied).2.1 := by
  induction k with
  | zero => exact fun _ hs _ _ _ _ => hs
  | succ k ih =>
    intro s s' uva kva len copied h hs hle hlohi hr hbuf
    by_cases hlen : len = 0
    · rw [Vm.copyLoop, if_pos hlen, Vm.copyLoop, if_pos hlen]
      exact hs
    have h32 := hr.lt
    have hb := hbuf.buffer
    unfold KernelImage.Buffer at hb
    have hb1 := hb.1
    unfold vmUserLo at hb1
    obtain ⟨m, rfl⟩ := hs
    rw [copyLoop_succ hlen, copyLoop_succ hlen, h.overlay_walk hp h32 ⟨by omega, by omega⟩ hlohi]
    dsimp only
    obtain ⟨-, hframe, -⟩ := h.walk_reach hp hr hlen
    have hround := @Isolated.round K s pid h hp .copyout uva kva len hr hlen
      ⟨⟨by omega, by omega⟩, hbuf.high, hbuf.idptbl⟩
    obtain ⟨hpa, hbytes⟩ := chunk_bytes uva len hframe
    set pa := (s.walk pid uva).1 / 4096 * 4096 + uva % 4096
    obtain ⟨hle', hpage⟩ := chunk_le pa len
    have hmod : (kva + chunk pa len) % 2 ^ 32 = kva + chunk pa len := Nat.mod_eq_of_lt (by omega)
    have hnext : SameOff lo hi
        (Vm.transfer .copyout (s.walk pid uva).2.1 pa kva (chunk pa len))
        (Vm.transfer .copyout (overlay lo hi m (s.walk pid uva).2.1) pa kva (chunk pa len)) :=
      SameOff.memcpy ⟨m, rfl⟩ hpa (by omega) (fun i hi' => by omega) fun x hx hx' => by omega
    have hbuf' : K.CopyBuffer (kva + chunk pa len) (hi - (kva + chunk pa len)) := by
      have hrest := hbuf.rest (n := chunk pa len) (by omega)
      rwa [hmod, ← Nat.sub_add_eq] at hrest
    rw [hmod]
    exact ih hround hnext (by omega) hlohi (hr.next hle' (by omega)) hbuf'

/-! ### Pages the copy is not for -/

/-- A page of a process without a table there, and its page table, can be allocated. -/
theorem allocPage_of_quota {va : ℕ} (perm : ℕ) (hdir : s.getPdirEntry pid (va / (4096 * 1024)) = 0)
    (hpage : (s.pmm.containerAlloc pid).1 ≠ 0)
    (htable : ((s.pmm.containerAlloc pid).2.containerAlloc pid).1 ≠ 0 ∧
      ((s.pmm.containerAlloc pid).2.containerAlloc pid).1 ≠ magicNumber) :
    (s.allocPage pid va perm).1 ≠ magicNumber := by
  have hdir' : (s.containerAlloc pid).2.getPdirEntryByVa pid va = 0 := hdir
  have hpage' : (s.containerAlloc pid).1 ≠ 0 := hpage
  have hptbl : ((s.containerAlloc pid).2.allocPtbl pid va).1
      = ((s.pmm.containerAlloc pid).2.containerAlloc pid).1 := by
    rw [allocPtbl_eq]
    split <;> rfl
  unfold Vm.allocPage
  simp only [if_neg hpage']
  rw [mapPage_of_no_table _ perm hdir', hptbl, if_pos htable]
  exact htable.2

/-- A missing page that can be allocated with its page table. -/
theorem walk_of_quota {va : ℕ} (hdir : s.getPdirEntry pid (va / (4096 * 1024)) = 0)
    (hpage : (s.pmm.containerAlloc pid).1 ≠ 0)
    (htable : ((s.pmm.containerAlloc pid).2.containerAlloc pid).1 ≠ 0 ∧
      ((s.pmm.containerAlloc pid).2.containerAlloc pid).1 ≠ magicNumber) :
    (s.walk pid va).2.2 ≠ some magicNumber := by
  have hentry : s.getPtblEntryByVa pid va = 0 := if_pos hdir
  have halloc := allocPage_of_quota 7 hdir hpage htable
  unfold Vm.walk
  rw [if_pos (by rw [hentry])]
  exact fun he => halloc (Option.some.inj he)

/-- The page of `va` keeps its frame, and the frame keeps its bytes. -/
def PageKept (pid va : ℕ) (s s' : Vm) : Prop :=
  s'.getPtblEntryByVa pid va = s.getPtblEntryByVa pid va ∧
    ∀ x, x / 4096 = s.getPtblEntryByVa pid va / 4096 → s'.mem x = s.mem x

theorem PageKept.refl (pid va : ℕ) (s : Vm) : PageKept pid va s s := ⟨rfl, fun _ _ => rfl⟩

theorem PageKept.trans {va : ℕ} {s1 s2 s3 : Vm} (h : PageKept pid va s1 s2)
    (h' : PageKept pid va s2 s3) : PageKept pid va s1 s3 :=
  ⟨h'.1.trans h.1, fun x hx => (h'.2 x (by rw [h.1]; exact hx)).trans (h.2 x hx)⟩

section Kept

variable {p uva va : ℕ}

theorem pdirEntry_of_entry (he : s.getPtblEntryByVa pid va ≠ 0) :
    s.getPdirEntry pid (va / (4096 * 1024)) ≠ 0 := fun hd => he (if_pos hd)

/-- An entry of another slot is set. -/
theorem Isolated.pageKept_setPtblEntry (h : s.Isolated K) (hu : UserSlot p (uva / (4096 * 1024)))
    (hd : s.getPdirEntry p (uva / (4096 * 1024)) ≠ 0) (hu' : UserSlot pid (va / (4096 * 1024)))
    (he : s.getPtblEntryByVa pid va ≠ 0)
    (hne : ¬ (pid = p ∧ va / (4096 * 1024) = uva / (4096 * 1024) ∧
      va / 4096 % 1024 = uva / 4096 % 1024)) (page perm : ℕ) :
    PageKept pid va s (s.setPtblEntryByVa p uva page perm) := by
  have hd' := pdirEntry_of_entry he
  have ht : ∀ n : ℕ, n / 4096 % 1024 < 1024 := fun n => Nat.mod_lt _ (by norm_num)
  constructor
  · have hw := h.getPtblEntry_write (v := (page * 4096 + perm) % 2 ^ 32)
      (Nat.mod_lt _ (by norm_num)) hu hd (ht uva) hu' hd' (ht va)
    rw [if_neg hne] at hw
    have hdir : (s.setPtblEntryByVa p uva page perm).getPdirEntry pid (va / (4096 * 1024)) ≠ 0 := hd'
    unfold getPtblEntryByVa
    rw [if_neg hdir, if_neg hd']
    exact hw
  · intro x hx
    -- a data page is in another frame than the page table
    have hframe : s.getPdirEntry p (uva / (4096 * 1024)) / 4096 ≠ x / 4096 := by
      intro hf
      rw [hx] at hf
      exact absurd (h.distinct (.table p _) _ _ ⟨hu, hd, hf⟩ (names_of_va hu' he)) (by simp)
    have hlt := ht uva
    refine write32_of_outside ?_
    unfold getPdirEntry at hframe
    unfold ptblAddr
    omega

/-- A page table is allocated. -/
theorem Isolated.pageKept_allocPtbl (h : s.Isolated K)
    (hd : s.getPdirEntry p (uva / (4096 * 1024)) = 0) (hu' : UserSlot pid (va / (4096 * 1024)))
    (he : s.getPtblEntryByVa pid va ≠ 0) : PageKept pid va s (s.allocPtbl p uva).2 := by
  have hd' := pdirEntry_of_entry he
  have hne : ¬ (pid = p ∧ va / (4096 * 1024) = uva / (4096 * 1024)) := by
    rintro ⟨rfl, heq⟩
    rw [heq] at hd'
    exact hd' hd
  rcases h.allocPtbl_cases p uva with hres | ⟨f, mem', -, -, hf, hmem, -, hres⟩
  · rw [hres]
    exact ⟨rfl, fun _ _ => rfl⟩
  rw [hres]
  have htable : s.getPdirEntry pid (va / (4096 * 1024)) / 4096 ≠ f :=
    fun heq => hf.2.2 (.table pid _) ⟨hu', hd', heq⟩
  have hpage : s.getPtblEntryByVa pid va / 4096 ≠ f :=
    fun heq => hf.2.2 (.page pid _ _) (heq ▸ names_of_va (s := (s.containerAlloc p).2) hu' he)
  refine ⟨?_, fun x hx => hmem x (by rw [hx]; exact hpage)⟩
  have hdir : ((s.containerAlloc p).2.putPdirEntry p (uva / (4096 * 1024)) (f * 4096 + 7)).getPdirEntry
      pid (va / (4096 * 1024)) = s.getPdirEntry pid (va / (4096 * 1024)) :=
    (getPdirEntry_put _ _ _ _ _ _).trans (if_neg hne)
  have haddr : ((s.containerAlloc p).2.putPdirEntry p (uva / (4096 * 1024)) (f * 4096 + 7)).ptblAddr
      pid (va / (4096 * 1024)) (va / 4096 % 1024)
        = s.ptblAddr pid (va / (4096 * 1024)) (va / 4096 % 1024) :=
    ptblAddr_put (s.containerAlloc p).2 _ hne
  have hread : read32 mem' (s.ptblAddr pid (va / (4096 * 1024)) (va / 4096 % 1024))
      = read32 s.mem (s.ptblAddr pid (va / (4096 * 1024)) (va / 4096 % 1024)) := by
    exact read32_table (Nat.mod_lt _ (by norm_num)) fun x hx => hmem x (by omega)
  unfold getPtblEntryByVa
  rw [if_neg hd']
  refine (if_neg ?_).trans ?_
  · rw [show getPdirEntry { (s.containerAlloc p).2.putPdirEntry p (uva / (4096 * 1024))
      (f * 4096 + 7) with mem := mem' } pid (va / (4096 * 1024)) = _ from hdir]
    exact hd'
  · exact (congrArg (read32 mem') haddr).trans hread

/-- **`alloc_page` leaves the other pages alone.** -/
theorem Isolated.pageKept_allocPage (h : s.Isolated K) (hu : UserSlot p (uva / (4096 * 1024)))
    (hne : ¬ (pid = p ∧ va / 4096 = uva / 4096)) (hu' : UserSlot pid (va / (4096 * 1024)))
    (he : s.getPtblEntryByVa pid va ≠ 0) (perm : ℕ) :
    PageKept pid va s (s.allocPage p uva perm).2 := by
  obtain ⟨h1, -, -⟩ := h.containerAlloc p
  have hslot : ¬ (pid = p ∧ va / (4096 * 1024) = uva / (4096 * 1024) ∧
      va / 4096 % 1024 = uva / 4096 % 1024) := by
    rintro ⟨rfl, h1, h2⟩
    exact hne ⟨rfl, by omega⟩
  have hk1 : PageKept pid va s (s.containerAlloc p).2 := ⟨rfl, fun _ _ => rfl⟩
  have he1 : (s.containerAlloc p).2.getPtblEntryByVa pid va ≠ 0 := he
  unfold Vm.allocPage
  by_cases h0 : (s.containerAlloc p).1 = 0
  · simp only [if_pos h0]
    exact hk1
  simp only [if_neg h0]
  refine hk1.trans ?_
  generalize (s.containerAlloc p).1 = page at *
  generalize (s.containerAlloc p).2 = s1 at *
  by_cases hd : s1.getPdirEntry p (uva / (4096 * 1024)) = 0
  · have hk2 := h1.pageKept_allocPtbl hd hu' he1
    rw [mapPage_of_no_table page perm hd]
    by_cases hr : (s1.allocPtbl p uva).1 ≠ 0 ∧ (s1.allocPtbl p uva).1 ≠ magicNumber
    · rw [if_pos hr]
      obtain ⟨h2, hentry, -⟩ := h1.allocPtbl hu hd
      exact hk2.trans (h2.pageKept_setPtblEntry hu (hentry hr.1) hu' (by rw [hk2.1]; exact he1)
        hslot page perm)
    · rw [if_neg hr]
      exact hk2
  · rw [mapPage_of_table page perm hd]
    exact h1.pageKept_setPtblEntry hu hd hu' he1 hslot page perm

/-- A present page is not the missing one. -/
theorem not_page_of_missing (hmiss : s.getPtblEntryByVa p uva = 0)
    (he : s.getPtblEntryByVa pid va ≠ 0) : ¬ (pid = p ∧ va / 4096 = uva / 4096) := by
  rintro ⟨rfl, hpage⟩
  refine he ?_
  have hd : va / (4096 * 1024) = uva / (4096 * 1024) := by omega
  unfold getPtblEntryByVa at hmiss ⊢
  rw [hd, hpage]
  exact hmiss

theorem Isolated.pageKept_walk (h : s.Isolated K) (hp : UserPid p)
    (huva : uva < 2 ^ 32) (hu' : UserSlot pid (va / (4096 * 1024)))
    (he : s.getPtblEntryByVa pid va ≠ 0) : PageKept pid va s (s.walk p uva).2.1 := by
  unfold Vm.walk
  by_cases hm : s.getPtblEntryByVa p uva % 2 = 0
  · simp only [if_pos hm]
    have hin : vmUserLo ≤ uva ∧ uva < vmUserHi := by
      by_contra hout
      have := (h.kernel_entry hp.2 (by omega : uva < vmUserLo ∨ vmUserHi ≤ uva) huva).1
      omega
    have hu := userSlot_of_va hp hin.1 hin.2
    exact h.pageKept_allocPage hu (not_page_of_missing (h.entry_eq_zero hu hm) he) hu' he 7
  · simp only [if_neg hm]
    exact PageKept.refl pid va s

/-- The physical address of the byte at `va`. -/
def userPa (s : Vm) (pid va : ℕ) : ℕ := s.getPtblEntryByVa pid va / 4096 * 4096 + va % 4096

/-- The byte a process sees at the user address `va`, if its page is present. -/
def userByte (s : Vm) (pid va : ℕ) : Option UInt8 :=
  if (vmUserLo ≤ va ∧ va < vmUserHi) ∧ s.getPtblEntryByVa pid va % 2 = 1 then
    some (s.mem (s.userPa pid va))
  else none

/-- The byte at `va` keeps its place and its value. -/
def ByteKept (pid va : ℕ) (s s' : Vm) : Prop :=
  s'.getPtblEntryByVa pid va = s.getPtblEntryByVa pid va ∧
    s'.mem (s.userPa pid va) = s.mem (s.userPa pid va)

theorem ByteKept.trans {s1 s2 s3 : Vm} (h : ByteKept pid va s1 s2) (h' : ByteKept pid va s2 s3) :
    ByteKept pid va s1 s3 := by
  have hpa : s2.userPa pid va = s1.userPa pid va := by rw [userPa, userPa, h.1]
  have hmem := h'.2
  rw [hpa] at hmem
  exact ⟨h'.1.trans h.1, hmem.trans h.2⟩

theorem PageKept.byteKept (h : PageKept pid va s s') : ByteKept pid va s s' :=
  ⟨h.1, h.2 _ (by unfold userPa; omega)⟩

/-- A `memcpy` to other frames than that of the page table. -/
theorem getPtblEntryByVa_memcpy {dst src n : ℕ}
    (hdst : dst + n ≤ 2 ^ 32)
    (htable : ∀ x, dst ≤ x → x < dst + n →
      x / 4096 ≠ s.getPdirEntry pid (va / (4096 * 1024)) / 4096) :
    getPtblEntryByVa { s with mem := Mcertikos.memcpy s.mem dst src n } pid va
      = s.getPtblEntryByVa pid va := by
  refine getPtblEntryByVa_congr fun _ x hx => memcpy_of_outside hdst ?_
  by_contra hin
  push Not at hin
  exact htable x hin.1 hin.2 hx

theorem byteKept_memcpy {dst src n : ℕ} (hdst : dst + n ≤ 2 ^ 32)
    (htable : ∀ x, dst ≤ x → x < dst + n →
      x / 4096 ≠ s.getPdirEntry pid (va / (4096 * 1024)) / 4096)
    (hbyte : s.userPa pid va < dst ∨ dst + n ≤ s.userPa pid va) :
    ByteKept pid va s { s with mem := Mcertikos.memcpy s.mem dst src n } :=
  ⟨getPtblEntryByVa_memcpy hdst htable, memcpy_of_outside hdst hbyte⟩

theorem Isolated.le_userPa (h : s.Isolated K) (hu : UserSlot pid (va / (4096 * 1024)))
    (he : s.getPtblEntryByVa pid va ≠ 0) :
    0x40000 ≤ s.getPtblEntryByVa pid va / 4096 ∧ s.getPtblEntryByVa pid va / 4096 < 0xF0000 := by
  have hr := h.norm_range _ (h.named _ _ (names_of_va hu he)).1
  unfold userLoPi userHiPi at hr
  exact hr

/-- A `memcpy` to a buffer of the kernel leaves user bytes alone. -/
theorem Isolated.byteKept_buffer (h : s.Isolated K) (hu : UserSlot pid (va / (4096 * 1024)))
    (he : s.getPtblEntryByVa pid va ≠ 0) {kva n : ℕ} (hkva : kva + n ≤ vmUserLo) (src : ℕ) :
    ByteKept pid va s { s with mem := Mcertikos.memcpy s.mem kva src n } := by
  unfold vmUserLo at hkva
  refine byteKept_memcpy (by omega) ?_ ?_
  · intro x _ hx
    have hrange := (h.table_range hu (pdirEntry_of_entry he)).1
    unfold userLoPi at hrange
    omega
  · have hrange := (h.le_userPa hu he).1
    unfold userPa
    omega

/-- **A copy into the kernel leaves user bytes alone.** -/
theorem Isolated.copyin_byte (hp : UserPid p) (hu : UserSlot pid (va / (4096 * 1024))) (k : ℕ) :
    ∀ {s : Vm} {uva kva len copied : ℕ}, s.Isolated K → RoundOk uva len → K.CopyBuffer kva len →
      s.getPtblEntryByVa pid va ≠ 0 →
      ByteKept pid va s (Vm.copyLoop .copyin p k s uva kva len copied).2.1 := by
  induction k with
  | zero => exact fun _ _ _ _ => ⟨rfl, rfl⟩
  | succ k ih =>
    intro s uva kva len copied h hr hbuf he
    by_cases hlen : len = 0
    · rw [Vm.copyLoop, if_pos hlen]
      exact ⟨rfl, rfl⟩
    have h32 := hr.lt
    rw [copyLoop_succ hlen]
    dsimp only
    have hwalk := (h.pageKept_walk hp h32 hu he).byteKept
    have he1 : (s.walk p uva).2.1.getPtblEntryByVa pid va ≠ 0 := by rw [hwalk.1]; exact he
    obtain ⟨h1, -, -⟩ := h.walk_reach hp hr hlen
    have hround := @Isolated.round K s p h hp .copyin uva kva len hr hlen hbuf
    set pa := (s.walk p uva).1 / 4096 * 4096 + uva % 4096
    obtain ⟨hle, hpage⟩ := chunk_le pa len
    have hb := hbuf.buffer.1
    have htrans : ByteKept pid va (s.walk p uva).2.1
        (Vm.transfer .copyin (s.walk p uva).2.1 pa kva (chunk pa len)) :=
      h1.byteKept_buffer hu he1 (by omega) pa
    have hstep := hwalk.trans htrans
    exact hstep.trans (ih hround (hr.next hle (by omega)) (hbuf.rest hle) (by rw [hstep.1]; exact he))

/-- The frame of another user address of the same process is another one, or the
address is in the same page. -/
theorem Isolated.walk_frame (h : s.Isolated K) (hp : UserPid pid) {uva len : ℕ}
    (hr : RoundOk uva len) (hlen : len ≠ 0) (hu : UserSlot pid (va / (4096 * 1024)))
    (he : s.getPtblEntryByVa pid va ≠ 0)
    (hf : (s.walk pid uva).1 / 4096 = s.getPtblEntryByVa pid va / 4096) : va / 4096 = uva / 4096 := by
  have h32 := hr.lt
  obtain ⟨h1, -, -⟩ := h.walk_reach hp hr hlen
  have hk := (h.pageKept_walk hp h32 hu he).1
  have hrange := h.le_userPa hu he
  by_cases hin : vmUserLo ≤ uva ∧ uva < vmUserHi
  · have hu' := userSlot_of_va hp hin.1 hin.2
    have hn := names_of_va (s := (s.walk pid uva).2.1) hu (by rw [hk]; exact he)
    have hn' := names_of_va (s := (s.walk pid uva).2.1) hu' (by rw [walk_entry]; omega)
    rw [walk_entry, hf] at hn'
    rw [hk] at hn
    obtain ⟨-, hd, ht⟩ := FrameRef.page.inj (h1.distinct _ _ _ hn hn')
    omega
  · obtain ⟨hodd, hframe⟩ := h.kernel_entry hp.2 (by omega : uva < vmUserLo ∨ vmUserHi ≤ uva) h32
    rw [walk_of_present hodd] at hf
    dsimp only at hf
    unfold vmUserLo vmUserHi at hin
    rcases hr.2 with hlt | hlt
    · unfold vmUserLo at hlt
      omega
    · omega

/-- **A copy to a process leaves its other bytes alone.** -/
theorem Isolated.copyout_byte (hp : UserPid pid) (hu : UserSlot pid (va / (4096 * 1024))) (k : ℕ) :
    ∀ {s : Vm} {uva kva len copied : ℕ}, s.Isolated K → vmUserLo ≤ uva → uva + len ≤ vmUserHi →
      len ≤ 4096 → va < uva ∨ uva + len ≤ va → K.CopyBuffer kva len →
      s.getPtblEntryByVa pid va ≠ 0 →
      ByteKept pid va s (Vm.copyLoop .copyout pid k s uva kva len copied).2.1 := by
  induction k with
  | zero => exact fun _ _ _ _ _ _ _ => ⟨rfl, rfl⟩
  | succ k ih =>
    intro s uva kva len copied h hlo hhi hle hout hbuf he
    by_cases hlen : len = 0
    · rw [Vm.copyLoop, if_pos hlen]
      exact ⟨rfl, rfl⟩
    have hhi' := hhi
    unfold vmUserHi at hhi'
    have h32 : uva < 2 ^ 32 := by omega
    have hr : RoundOk uva len := ⟨hle, .inl ⟨hlo, h32⟩⟩
    rw [copyLoop_succ hlen]
    dsimp only
    have hwalk := (h.pageKept_walk hp h32 hu he).byteKept
    have he1 : (s.walk pid uva).2.1.getPtblEntryByVa pid va ≠ 0 := by rw [hwalk.1]; exact he
    obtain ⟨h1, hframe, htable⟩ := h.walk_reach hp hr hlen
    have hround := @Isolated.round K s pid h hp .copyout uva kva len hr hlen hbuf
    have hpage := h.walk_frame hp hr hlen hu he
    set pa := (s.walk pid uva).1 / 4096 * 4096 + uva % 4096
    obtain ⟨hle', hend⟩ := chunk_le pa len
    have htrans : ByteKept pid va (s.walk pid uva).2.1
        (Vm.transfer .copyout (s.walk pid uva).2.1 pa kva (chunk pa len)) := by
      refine byteKept_memcpy (by omega) ?_ ?_
      · intro x hx hx'
        have hne := htable _ _ hu (pdirEntry_of_entry he1)
        omega
      · -- another frame, or another byte of the page
        unfold userPa
        rw [hwalk.1]
        by_cases hf : (s.walk pid uva).1 / 4096 = s.getPtblEntryByVa pid va / 4096
        · have hpg := hpage hf
          omega
        · omega
    have hstep := hwalk.trans htrans
    have hmod : (uva + chunk pa len) % 2 ^ 32 = uva + chunk pa len := Nat.mod_eq_of_lt (by omega)
    rw [hmod]
    exact hstep.trans (ih hround (by omega) (by omega) (by omega) (by omega) (hbuf.rest hle')
      (by rw [hstep.1]; exact he))

/-- **A copy to a page that is present or can be allocated** leaves the first byte of
the buffer there. -/
theorem Isolated.copyout_first (h : s.Isolated K) (hp : UserPid pid) {kva len : ℕ}
    (hlo : vmUserLo ≤ uva) (hhi : uva + len ≤ vmUserHi) (hle : len ≤ 4096) (hlen : len ≠ 0)
    (hbuf : K.CopyBuffer kva len) (hok : (s.walk pid uva).2.2 ≠ some magicNumber) (k : ℕ) :
    (Vm.copyLoop .copyout pid (k + 1) s uva kva len 0).2.1.getPtblEntryByVa pid uva ≠ 0 ∧
    (Vm.copyLoop .copyout pid (k + 1) s uva kva len 0).2.1.mem
      ((Vm.copyLoop .copyout pid (k + 1) s uva kva len 0).2.1.userPa pid uva) = s.mem kva := by
  have hhi' := hhi
  unfold vmUserHi at hhi'
  have h32 : uva < 2 ^ 32 := by omega
  have hr : RoundOk uva len := ⟨hle, .inl ⟨hlo, h32⟩⟩
  have hu : UserSlot pid (uva / (4096 * 1024)) := userSlot_of_va hp hlo (by omega)
  have he1 : (s.walk pid uva).2.1.getPtblEntryByVa pid uva ≠ 0 := by
    have hodd := walk_present hok
    rw [walk_entry]
    omega
  obtain ⟨h1, hframe, htable⟩ := h.walk_reach hp hr hlen
  have hround := @Isolated.round K s pid h hp .copyout uva kva len hr hlen hbuf
  set pa := (s.walk pid uva).1 / 4096 * 4096 + uva % 4096
  obtain ⟨hle', hend⟩ := chunk_le pa len
  have hpos := chunk_pos pa hlen
  have hb := hbuf.buffer
  have hb1 := hb.1
  unfold vmUserLo at hb1
  rw [copyLoop_succ hlen]
  dsimp only
  -- the first round writes the byte
  have hentry : (Vm.transfer .copyout (s.walk pid uva).2.1 pa kva
      (chunk pa len)).getPtblEntryByVa pid uva = (s.walk pid uva).1 := by
    refine (getPtblEntryByVa_memcpy (by omega) fun x hx hx' => ?_).trans (walk_entry s pid uva)
    have hne := htable _ _ hu (pdirEntry_of_entry he1)
    omega
  have hbyte : (Vm.transfer .copyout (s.walk pid uva).2.1 pa kva (chunk pa len)).mem pa
      = s.mem kva := by
    have hin : Mcertikos.memcpy (s.walk pid uva).2.1.mem pa kva (chunk pa len) (pa + 0)
        = (s.walk pid uva).2.1.mem (kva + 0) := memcpy_inside (by omega) (by omega) hpos
    have hkva : K.Buffer kva 1 := ⟨by unfold vmUserLo; omega, by have := hb.2; omega⟩
    rw [Nat.add_zero, Nat.add_zero, h.walk_buffer hp h32 hkva] at hin
    exact hin
  have hpa2 : (Vm.transfer .copyout (s.walk pid uva).2.1 pa kva (chunk pa len)).userPa pid uva
      = pa := by rw [userPa, hentry]
  have he2 : (Vm.transfer .copyout (s.walk pid uva).2.1 pa kva
      (chunk pa len)).getPtblEntryByVa pid uva ≠ 0 := by
    rw [hentry, ← walk_entry]
    exact he1
  -- the other rounds leave it there
  have hmod : (uva + chunk pa len) % 2 ^ 32 = uva + chunk pa len := Nat.mod_eq_of_lt (by omega)
  have hkept : ByteKept pid uva (Vm.transfer .copyout (s.walk pid uva).2.1 pa kva (chunk pa len))
      (Vm.copyLoop .copyout pid k (Vm.transfer .copyout (s.walk pid uva).2.1 pa kva (chunk pa len))
        (uva + chunk pa len) ((kva + chunk pa len) % 2 ^ 32) (len - chunk pa len)
        (0 + chunk pa len)).2.1 :=
    Isolated.copyout_byte hp hu k hround (by omega) (by omega) (by omega) (.inl (by omega))
      (hbuf.rest hle') he2
  rw [hmod]
  generalize (Vm.copyLoop .copyout pid k _ (uva + chunk pa len) _ _ _).2.1 = s3 at hkept ⊢
  obtain ⟨hk1, hk2⟩ := hkept
  rw [hpa2, hbyte] at hk2
  rw [userPa, hk1, hentry]
  rw [hentry] at he2
  exact ⟨he2, hk2⟩

end Kept

end Vm

end Mcertikos
