/-
Copies between kernel buffers and user memory (`pt_copyin`, `pt_copyout` of
`lib/pmap.c`, and the buffer arguments of `sys_read` and `sys_write`).

The model of a copy returns, besides its result, the list of its `Access`es:
one for each `memcpy`, with the state it happens in, the physical address on
the user side and what `alloc_page` returned if it was called.  A copy is
`Confined` if every byte it touches on the user side lies in a frame that the
process's own page table maps inside the user range at that moment.

* `copyLoop_confined` — a copy that ends inside the user range and whose
  `alloc_page` calls succeed is confined, from every state;
* `Isolated.copyLoop_sound` — from an isolated state there is no other way to be
  confined: a sum that wraps reaches the kernel's identity map, and a failed
  `alloc_page` leaves entry `0`, so that the copy touches frame `0`.
-/
import Mcertikos.Vmm.Isolation

namespace Mcertikos

open List Memory AllocTable

/-- Which way the bytes go. -/
inductive CopyDir where
  | copyin
  | copyout
  deriving DecidableEq, Repr

/-- `memcpy` (a `memmove`) on 32-bit addresses. -/
def memcpy (m : Mem) (dst src n : ℕ) : Mem := fun x =>
  let i := (x + 2 ^ 32 - dst) % 2 ^ 32
  if x < 2 ^ 32 ∧ i < n then m ((src + i) % 2 ^ 32) else m x

namespace Vm

/-- One `memcpy` of a copy: the state before it, the user-side physical address,
the number of bytes, and the result of `alloc_page` if that was called. -/
structure Access where
  st : Vm
  pa : ℕ
  size : ℕ
  alloc : Option ℕ

/-- The page-table entry the loop uses for `uva`: on a missing page it calls
`alloc_page`, ignores the result and reads the entry again. -/
def walk (s : Vm) (pid uva : ℕ) : ℕ × Vm × Option ℕ :=
  let entry := s.getPtblEntryByVa pid uva
  if entry % 2 = 0 then
    let (r, s₁) := s.allocPage pid uva 7
    (s₁.getPtblEntryByVa pid uva, s₁, some r)
  else (entry, s, none)

/-- The `memcpy` of one round. -/
def transfer (dir : CopyDir) (s : Vm) (pa kva size : ℕ) : Vm :=
  match dir with
  | .copyin => { s with mem := memcpy s.mem kva pa size }
  | .copyout => { s with mem := memcpy s.mem pa kva size }

/-- `size` of one round: what is left, up to the end of the page. -/
def chunk (pa len : ℕ) : ℕ := if len < 4096 - pa % 4096 then len else 4096 - pa % 4096

/-- The loop of both copies: number of bytes copied, final state and accesses.
The first number bounds the rounds; every round copies at least one byte. -/
def copyLoop (dir : CopyDir) (pid : ℕ) : ℕ → Vm → ℕ → ℕ → ℕ → ℕ → ℕ × Vm × List Access
  | 0, s, _, _, _, copied => (copied, s, [])
  | k + 1, s, uva, kva, len, copied =>
    if len = 0 then (copied, s, [])
    else
      let (entry, s₁, alloc) := s.walk pid uva
      let pa := entry / 4096 * 4096 + uva % 4096
      let size := chunk pa len
      let s₂ := transfer dir s₁ pa kva size
      let (c, s₃, log) := copyLoop dir pid k s₂ ((uva + size) % 2 ^ 32) ((kva + size) % 2 ^ 32)
        (len - size) (copied + size)
      (c, s₃, ⟨s₁, pa, size, alloc⟩ :: log)

/-- The range checks at the start of both copies; the sums are 32-bit. -/
def copyRejected (uva kva len : ℕ) : Prop :=
  ¬ (vmUserLo ≤ uva ∧ (uva + len) % 2 ^ 32 ≤ vmUserHi) ∨ (kva + len) % 2 ^ 32 > vmUserHi

instance (uva kva len : ℕ) : Decidable (copyRejected uva kva len) := by
  unfold copyRejected
  infer_instance

def ptCopy (dir : CopyDir) (s : Vm) (pid uva kva len : ℕ) : ℕ × Vm × List Access :=
  if copyRejected uva kva len then (0, s, []) else copyLoop dir pid len s uva kva len 0

def ptCopyin (s : Vm) (pid uva kva len : ℕ) : ℕ × Vm × List Access :=
  s.ptCopy .copyin pid uva kva len

def ptCopyout (s : Vm) (kva pid uva len : ℕ) : ℕ × Vm × List Access :=
  s.ptCopy .copyout pid uva kva len

/-! ### What confinement means -/

/-- The page table of `pid` maps frame `f` somewhere in the user range. -/
def MapsUser (s : Vm) (pid f : ℕ) : Prop :=
  ∃ va, vmUserLo ≤ va ∧ va < vmUserHi ∧ s.getPtblEntryByVa pid va % 2 = 1 ∧
    s.getPtblEntryByVa pid va / 4096 = f

/-- Every byte of the access lies in a frame `pid` maps in the user range. -/
def Access.Confined (pid : ℕ) (a : Access) : Prop :=
  ∀ k, k < a.size → a.st.MapsUser pid ((a.pa + k) / 4096)

/-- No `alloc_page` of the copy failed. -/
def AllocsSucceed (log : List Access) : Prop := ∀ a ∈ log, a.alloc ≠ some magicNumber

/-! ### One round -/

theorem memcpy_of_outside {m : Mem} {dst src n x : ℕ} (hdst : dst + n ≤ 2 ^ 32)
    (hx : x < dst ∨ dst + n ≤ x) : memcpy m dst src n x = m x := by
  unfold memcpy
  dsimp only
  rw [if_neg]
  omega

variable {len uva pid va : ℕ} {s : Vm}

theorem chunk_pos (pa : ℕ) (h : len ≠ 0) : 0 < chunk pa len := by
  unfold chunk
  split <;> omega

theorem chunk_le (pa len : ℕ) : chunk pa len ≤ len ∧ pa % 4096 + chunk pa len ≤ 4096 := by
  unfold chunk
  split <;> omega

/-- All bytes of a round lie in the frame of the entry. -/
theorem chunk_frame {entry k : ℕ} (hk : k < chunk (entry / 4096 * 4096 + uva % 4096) len) :
    (entry / 4096 * 4096 + uva % 4096 + k) / 4096 = entry / 4096 := by
  have := (chunk_le (entry / 4096 * 4096 + uva % 4096) len).2
  omega

theorem walk_of_present (hodd : s.getPtblEntryByVa pid uva % 2 = 1) :
    s.walk pid uva = (s.getPtblEntryByVa pid uva, s, none) := by
  unfold Vm.walk
  rw [if_neg (by omega)]

theorem copyLoop_succ {dir : CopyDir} {k : ℕ} {kva copied : ℕ} (hlen : len ≠ 0) :
    copyLoop dir pid (k + 1) s uva kva len copied = let entry := (s.walk pid uva).1
      let s1 := (s.walk pid uva).2.1
      let pa := entry / 4096 * 4096 + uva % 4096
      let r := copyLoop dir pid k (transfer dir s1 pa kva (chunk pa len))
        ((uva + chunk pa len) % 2 ^ 32) ((kva + chunk pa len) % 2 ^ 32) (len - chunk pa len)
        (copied + chunk pa len)
      (r.1, r.2.1, ⟨s1, pa, chunk pa len, (s.walk pid uva).2.2⟩ :: r.2.2) := by
  rw [copyLoop, if_neg hlen]

/-- A page table entry just set is the one found again. -/
theorem getPtblEntryByVa_set (page perm : ℕ) (hd : s.getPdirEntryByVa pid va ≠ 0) :
    (s.setPtblEntryByVa pid va page perm).getPtblEntryByVa pid va
      = (page * 4096 + perm) % 2 ^ 32 := by
  have hd' : (s.setPtblEntryByVa pid va page perm).getPdirEntry pid (va / (4096 * 1024)) ≠ 0 := hd
  unfold getPtblEntryByVa
  rw [if_neg hd']
  exact read32_write32_same (Nat.mod_lt _ (by norm_num))

/-- `alloc_ptbl` that returns a page fills the directory slot. -/
theorem allocPtbl_pdirEntry (h : (s.allocPtbl pid va).1 ≠ 0) :
    (s.allocPtbl pid va).2.getPdirEntryByVa pid va ≠ 0 := by
  rw [allocPtbl_eq] at h ⊢
  by_cases h0 : (s.containerAlloc pid).1 = 0
  · rw [if_neg (not_not.mpr h0)] at h
    exact absurd h0 h
  · rw [if_pos h0]
    obtain ⟨mem', hloop, -, -⟩ := loop_rmvPtblEntry
      ((s.containerAlloc pid).2.setPdirEntryByVa pid va (s.containerAlloc pid).1) pid
      (va / (4096 * 1024)) 1024
    rw [hloop]
    have hput := getPdirEntry_put (s.containerAlloc pid).2 pid (va / (4096 * 1024))
      (((s.containerAlloc pid).1 * 4096 + 7) % 2 ^ 32) pid (va / (4096 * 1024))
    rw [if_pos ⟨rfl, rfl⟩] at hput
    intro hz
    have := hput.symm.trans hz
    omega

/-- After an `alloc_page` that does not fail, the page is present. -/
theorem allocPage_present (h : (s.allocPage pid va 7).1 ≠ magicNumber) :
    (s.allocPage pid va 7).2.getPtblEntryByVa pid va % 2 = 1 := by
  unfold Vm.allocPage at h ⊢
  by_cases h0 : (s.containerAlloc pid).1 = 0
  · simp only [if_pos h0, ne_eq, not_true_eq_false] at h
  · simp only [if_neg h0] at h ⊢
    generalize (s.containerAlloc pid).1 = page at *
    generalize (s.containerAlloc pid).2 = s1 at *
    by_cases hd : s1.getPdirEntryByVa pid va = 0
    · rw [mapPage_of_no_table page 7 hd] at h ⊢
      by_cases hr : (s1.allocPtbl pid va).1 ≠ 0 ∧ (s1.allocPtbl pid va).1 ≠ magicNumber
      · rw [if_pos hr]
        dsimp only
        rw [getPtblEntryByVa_set page 7 (allocPtbl_pdirEntry hr.1)]
        omega
      · rw [if_neg hr] at h
        exact absurd rfl h
    · rw [mapPage_of_table page 7 hd]
      dsimp only
      rw [getPtblEntryByVa_set page 7 hd]
      omega

/-- The entry a round uses is the one in the page table, and it is present
unless `alloc_page` failed. -/
theorem walk_present (h : (s.walk pid uva).2.2 ≠ some magicNumber) :
    (s.walk pid uva).1 % 2 = 1 := by
  unfold walk at h ⊢
  by_cases he : s.getPtblEntryByVa pid uva % 2 = 0
  · simp only [if_pos he, ne_eq, Option.some.injEq] at h ⊢
    exact allocPage_present h
  · simp only [if_neg he]
    omega

theorem walk_entry (s : Vm) (pid uva : ℕ) :
    (s.walk pid uva).2.1.getPtblEntryByVa pid uva = (s.walk pid uva).1 := by
  unfold walk
  by_cases he : s.getPtblEntryByVa pid uva % 2 = 0
  · simp only [if_pos he]
  · simp only [if_neg he]

/-! ### Sound copies are confined -/

/-- **A copy inside the user range whose allocations succeed is confined**, from
every state and for every kernel address. -/
theorem copyLoop_confined {dir : CopyDir} (k : ℕ) : ∀ {s : Vm} {uva kva len copied : ℕ},
    vmUserLo ≤ uva → uva + len ≤ vmUserHi →
    AllocsSucceed (copyLoop dir pid k s uva kva len copied).2.2 →
    ∀ a ∈ (copyLoop dir pid k s uva kva len copied).2.2, a.Confined pid := by
  induction k with
  | zero =>
    intro s uva kva len copied _ _ _ a ha
    exact absurd ha not_mem_nil
  | succ k ih =>
    intro s uva kva len copied hlo hhi hok a ha
    by_cases hlen : len = 0
    · rw [copyLoop, if_pos hlen] at ha
      exact absurd ha not_mem_nil
    · rw [copyLoop_succ hlen] at hok ha
      dsimp only at hok ha
      have hodd := walk_present (hok _ mem_cons_self)
      have hsize := chunk_le ((s.walk pid uva).1 / 4096 * 4096 + uva % 4096) len
      have hpos := chunk_pos ((s.walk pid uva).1 / 4096 * 4096 + uva % 4096) hlen
      rcases mem_cons.mp ha with rfl | ha'
      · intro j hj
        refine ⟨uva, hlo, by omega, ?_, ?_⟩
        · rw [walk_entry]
          exact hodd
        · rw [walk_entry]
          exact (chunk_frame hj).symm
      · -- the next round starts further up, still in the range
        unfold vmUserHi at hhi
        have hmod : ∀ n, n ≤ len → (uva + n) % 2 ^ 32 = uva + n := fun n hn =>
          Nat.mod_eq_of_lt (by omega)
        refine ih ?_ ?_ (fun a ha => hok a (mem_cons_of_mem _ ha)) a ha'
        · rw [hmod _ hsize.1]
          omega
        · rw [hmod _ hsize.1]
          unfold vmUserHi
          omega

/-! ### Isolated states -/

end Vm

/-- A kernel buffer: below the user range, and apart from the identity tables. -/
def KernelImage.Buffer (K : KernelImage) (kva len : ℕ) : Prop :=
  kva + len ≤ vmUserLo ∧ (kva + len ≤ K.idptbl ∨ K.idptbl + 1024 * 4096 ≤ kva)

namespace Vm

variable {K : KernelImage} {s : Vm} {pid : ℕ}

/-- Isolation reads of the memory only the page tables and the identity tables. -/
theorem Isolated.of_mem (h : s.Isolated K) {mem' : Mem}
    (htable : ∀ p d, UserSlot p d → s.getPdirEntry p d ≠ 0 →
      ∀ x, x / 4096 = s.getPdirEntry p d / 4096 → mem' x = s.mem x)
    (hid : ∀ x, K.idptbl ≤ x → x < K.idptbl + 1024 * 4096 → mem' x = s.mem x) :
    Isolated K { s with mem := mem' } := by
  have hent : ∀ p d t, UserSlot p d → t < 1024 → s.getPdirEntry p d ≠ 0 →
      getPtblEntry { s with mem := mem' } p d t = s.getPtblEntry p d t :=
    fun p d t hu ht hd => read32_table ht (htable p d hu hd)
  have hnames : ∀ r f, Names { s with mem := mem' } r f → s.Names r f := by
    intro r f hn
    cases r with
    | table p d => exact hn
    | page p d t =>
      obtain ⟨hu, ht, hd, he, hf⟩ := hn
      rw [hent p d t hu ht hd] at he hf
      exact ⟨hu, ht, hd, he, hf⟩
  refine ⟨h.norm_range, h.alloc_norm, ?_, ?_, ?_, h.kernel, ?_⟩
  · exact fun r f hn => h.named r f (hnames r f hn)
  · exact fun r r' f hn hn' => h.distinct r r' f (hnames r f hn) (hnames r' f hn')
  · intro p d t hu ht hd he
    rw [hent p d t hu ht hd] at he ⊢
    exact h.present p d t hu ht hd he
  · intro i j hi hj
    refine (read32_congr fun x hx hx' => hid x (by omega) (by omega)).trans (h.idptbl i j hi hj)

variable {va uva kva len : ℕ} {dir : CopyDir}

/-- A present entry of the user range names its frame. -/
theorem names_of_va (hu : UserSlot pid (va / (4096 * 1024))) (he : s.getPtblEntryByVa pid va ≠ 0) :
    s.Names (.page pid (va / (4096 * 1024)) (va / 4096 % 1024))
      (s.getPtblEntryByVa pid va / 4096) := by
  unfold getPtblEntryByVa at he ⊢
  by_cases hd : s.getPdirEntry pid (va / (4096 * 1024)) = 0
  · rw [if_pos hd] at he
    exact absurd rfl he
  · rw [if_neg hd] at he ⊢
    exact ⟨hu, Nat.mod_lt _ (by norm_num), hd, he, rfl⟩

/-- The frames a process maps in the user range are user frames. -/
theorem Isolated.mapsUser_range (h : s.Isolated K) (hp : UserPid pid) {f : ℕ}
    (hm : s.MapsUser pid f) : userLoPi ≤ f ∧ f < userHiPi := by
  obtain ⟨va, hlo, hhi, hodd, rfl⟩ := hm
  have hu := userSlot_of_va hp hlo hhi
  exact h.norm_range _ (h.named _ _ (names_of_va hu (by omega))).1

/-- Outside of the user range every process sees the identity map. -/
theorem Isolated.kernel_entry (h : s.Isolated K) (hp' : pid < numIds)
    (hout : va < vmUserLo ∨ vmUserHi ≤ va) (hhi : va < 2 ^ 32) :
    s.getPtblEntryByVa pid va % 2 = 1 ∧ s.getPtblEntryByVa pid va / 4096 = va / 4096 := by
  unfold vmUserLo vmUserHi at hout
  have hpde := h.kernel pid (va / (4096 * 1024)) hp' (by omega)
  have hid := h.idptbl (va / (4096 * 1024)) (va / 4096 % 1024) (by omega)
    (Nat.mod_lt _ (by norm_num))
  have haddr : s.ptblAddr pid (va / (4096 * 1024)) (va / 4096 % 1024)
      = K.idptbl + va / (4096 * 1024) * 4096 + va / 4096 % 1024 * 4 := by
    have hal := K.aligned
    unfold getPdirEntry at hpde
    unfold ptblAddr
    omega
  have hperm : idPerm (va / (4096 * 1024)) = 0x103 := if_pos (by omega)
  have hval : s.getPtblEntryByVa pid va
      = (va / (4096 * 1024) * 1024 + va / 4096 % 1024) * 4096 + 0x103 := by
    unfold getPtblEntryByVa
    rw [if_neg (by omega)]
    unfold getPtblEntry
    rw [haddr, hid, hperm]
  rw [hval]
  omega

/-- A missing entry of an isolated state is `0`. -/
theorem Isolated.entry_eq_zero (h : s.Isolated K)
    (hu : UserSlot pid (va / (4096 * 1024))) (he : s.getPtblEntryByVa pid va % 2 = 0) :
    s.getPtblEntryByVa pid va = 0 := by
  by_contra hne
  obtain ⟨_, ht, hd, hent, _⟩ := names_of_va hu hne
  have hodd := h.present pid _ _ hu ht hd hent
  unfold getPtblEntryByVa at he
  rw [if_neg hd] at he
  omega

/-- A failed `alloc_page` leaves the missing entry `0`. -/
theorem Isolated.allocPage_fails (h : s.Isolated K) (he : s.getPtblEntryByVa pid va = 0)
    (hf : (s.allocPage pid va 7).1 = magicNumber) :
    (s.allocPage pid va 7).2.getPtblEntryByVa pid va = 0 := by
  obtain ⟨h1, _, _⟩ := h.containerAlloc pid
  have he1 : (s.containerAlloc pid).2.getPtblEntryByVa pid va = 0 := he
  unfold Vm.allocPage at hf ⊢
  by_cases h0 : (s.containerAlloc pid).1 = 0
  · simp only [if_pos h0]
    exact he1
  · simp only [if_neg h0] at hf ⊢
    generalize (s.containerAlloc pid).1 = page at *
    generalize (s.containerAlloc pid).2 = s1 at *
    by_cases hd : s1.getPdirEntryByVa pid va = 0
    · obtain ⟨h2, hfresh, _⟩ := h1.containerAlloc pid
      rw [mapPage_of_no_table page 7 hd] at hf ⊢
      -- a page number is never the error value, so no page table was allocated
      have hr : (s1.containerAlloc pid).1 = 0 := by
        by_contra hne
        have hrange := (h2.norm_range _ (hfresh hne).1).2
        have hpi : (s1.allocPtbl pid va).1 = (s1.containerAlloc pid).1 := by
          rw [allocPtbl_eq, if_pos hne]
        have hm : (s1.allocPtbl pid va).1 ≠ magicNumber := by
          rw [hpi]
          unfold userHiPi at hrange
          unfold magicNumber
          omega
        rw [if_pos ⟨by rw [hpi]; exact hne, hm⟩] at hf
        exact hm hf
      have hal : s1.allocPtbl pid va = (0, (s1.containerAlloc pid).2) := by
        rw [allocPtbl_eq, if_neg (not_not.mpr hr), hr]
      rw [hal, if_neg (by simp)]
      exact he1
    · rw [mapPage_of_table page 7 hd] at hf
      exact absurd hf (show (0 : ℕ) ≠ magicNumber by decide)

/-- A walk inside the user range keeps isolation; when its `alloc_page` fails,
the entry it uses is `0`. -/
theorem Isolated.walk (h : s.Isolated K) (hu : UserSlot pid (uva / (4096 * 1024))) :
    (s.walk pid uva).2.1.Isolated K ∧
    ((s.walk pid uva).2.2 = some magicNumber → (s.walk pid uva).1 = 0) := by
  unfold Vm.walk
  by_cases he : s.getPtblEntryByVa pid uva % 2 = 0
  · simp only [if_pos he, Option.some.injEq]
    exact ⟨h.allocPage hu (by norm_num) (by norm_num), h.allocPage_fails (h.entry_eq_zero hu he)⟩
  · simp only [if_neg he]
    exact ⟨h, fun hn => by cases hn⟩

/-- The `memcpy` of a round on a present page keeps isolation: it writes a data
page of the process, or the kernel buffer. -/
theorem Isolated.transfer (h : s.Isolated K)
    (hu : UserSlot pid (uva / (4096 * 1024))) (hodd : s.getPtblEntryByVa pid uva % 2 = 1)
    (hbuf : dir = .copyin → K.Buffer kva len) {size : ℕ} (hsize : size ≤ len)
    (hpage : uva % 4096 + size ≤ 4096) :
    (transfer dir s (s.getPtblEntryByVa pid uva / 4096 * 4096 + uva % 4096) kva size).Isolated
      K := by
  have hlow := K.low
  unfold vmUserLo at hlow
  cases dir with
  | copyin =>
    obtain ⟨hb, hb'⟩ := hbuf rfl
    unfold vmUserLo at hb
    refine h.of_mem ?_ ?_
    · intro p d hu' hd x hx
      have hr := (h.table_range hu' hd).1
      unfold userLoPi at hr
      exact memcpy_of_outside (by omega) (by omega)
    · intro x hx hx'
      exact memcpy_of_outside (by omega) (by omega)
  | copyout =>
    have hn := names_of_va hu (s := s) (by omega)
    obtain ⟨hr, hr'⟩ := h.norm_range _ (h.named _ _ hn).1
    unfold userLoPi at hr
    unfold userHiPi at hr'
    refine h.of_mem ?_ ?_
    · intro p d hu' hd x hx
      -- a page table never shares its frame with a data page
      have hne : s.getPdirEntry p d / 4096 ≠ s.getPtblEntryByVa pid uva / 4096 := by
        intro heq
        exact absurd (h.distinct (.table p d) _ _ ⟨hu', hd, heq⟩ hn) (by simp)
      exact memcpy_of_outside (by omega) (by omega)
    · intro x hx hx'
      exact memcpy_of_outside (by omega) (by omega)

/-- **From an isolated state a confined copy is a sound one**: it stays below the
end of the user range and no `alloc_page` failed.  A sound copy only passes
through isolated states. -/
theorem Isolated.copyLoop_sound (hp : UserPid pid) (k : ℕ) :
    ∀ {s : Vm} {uva kva len copied : ℕ}, s.Isolated K → vmUserLo ≤ uva → uva < 2 ^ 32 → len ≤ k →
    (dir = .copyin → K.Buffer kva len) →
    ((∀ a ∈ (copyLoop dir pid k s uva kva len copied).2.2, a.Confined pid) →
      (len = 0 ∨ uva + len ≤ vmUserHi) ∧
      AllocsSucceed (copyLoop dir pid k s uva kva len copied).2.2 ∧
      ∀ a ∈ (copyLoop dir pid k s uva kva len copied).2.2, a.st.Isolated K) := by
  induction k with
  | zero =>
    intro s uva kva len copied _ _ _ hk _ _
    exact ⟨.inl (by omega), nofun, nofun⟩
  | succ k ih =>
    intro s uva kva len copied h hlo h32 hk hbuf hconf
    by_cases hlen : len = 0
    · rw [copyLoop, if_pos hlen]
      exact ⟨.inl hlen, nofun, nofun⟩
    rw [copyLoop_succ hlen] at hconf ⊢
    dsimp only at hconf ⊢
    set pa := (s.walk pid uva).1 / 4096 * 4096 + uva % 4096 with hpa
    have hsize := chunk_le pa len
    have hpos := chunk_pos pa hlen
    have hpamod : pa % 4096 = uva % 4096 := by omega
    -- the first byte lies in a user frame
    have hfirst : (s.walk pid uva).2.1.MapsUser pid ((s.walk pid uva).1 / 4096) := by
      have := hconf _ mem_cons_self 0 hpos
      rw [chunk_frame hpos] at this
      exact this
    have hhi : uva < vmUserHi := by
      by_contra hge
      obtain ⟨hodd, hframe⟩ := h.kernel_entry hp.2 (.inr (not_lt.mp hge)) h32
      rw [walk_of_present hodd] at hfirst
      have hr := (h.mapsUser_range hp hfirst).2
      dsimp only at hr
      unfold userHiPi at hr
      unfold vmUserHi at hge
      omega
    have hu := userSlot_of_va hp hlo hhi
    obtain ⟨h1, hzero⟩ := h.walk hu
    have hok : (s.walk pid uva).2.2 ≠ some magicNumber := by
      intro hfail
      rw [hzero hfail] at hfirst
      have hr := (h1.mapsUser_range hp hfirst).1
      unfold userLoPi at hr
      omega
    have h2 : (Vm.transfer dir (s.walk pid uva).2.1 pa kva (chunk pa len)).Isolated K := by
      have hodd := walk_present hok
      rw [← walk_entry] at hodd
      rw [hpa, ← walk_entry]
      rw [hpa, ← walk_entry] at hsize hpamod
      exact h1.transfer hu hodd hbuf hsize.1 (by omega)
    -- the next round starts at most at the end of the range
    have hend : uva + chunk pa len ≤ vmUserHi := by
      unfold vmUserHi at hhi ⊢
      omega
    have hmod : (uva + chunk pa len) % 2 ^ 32 = uva + chunk pa len := by
      unfold vmUserHi at hend
      exact Nat.mod_eq_of_lt (by omega)
    rw [hmod] at hconf ⊢
    have hbuf' : dir = .copyin → K.Buffer ((kva + chunk pa len) % 2 ^ 32) (len - chunk pa len) := by
      intro hdir
      obtain ⟨hb, hb'⟩ := hbuf hdir
      unfold KernelImage.Buffer vmUserLo at *
      rw [Nat.mod_eq_of_lt (by omega)]
      omega
    obtain ⟨hrest, hall, hiso⟩ := ih h2 (by omega)
      (by unfold vmUserHi at hend; omega) (by omega) hbuf'
      (fun a ha => hconf a (mem_cons_of_mem _ ha))
    refine ⟨.inr (by omega), ?_, ?_⟩
    · intro a ha
      rcases mem_cons.mp ha with rfl | ha'
      · exact hok
      · exact hall a ha'
    · intro a ha
      rcases mem_cons.mp ha with rfl | ha'
      · exact h1
      · exact hiso a ha'

/-! ### The two copies -/

theorem ptCopy_confined (s : Vm) (hend : uva + len ≤ vmUserHi)
    (hok : AllocsSucceed (s.ptCopy dir pid uva kva len).2.2) :
    ∀ a ∈ (s.ptCopy dir pid uva kva len).2.2, a.Confined pid := by
  unfold ptCopy at hok ⊢
  by_cases hr : copyRejected uva kva len
  · rw [if_pos hr]
    exact nofun
  · rw [if_neg hr] at hok ⊢
    unfold copyRejected at hr
    push Not at hr
    exact copyLoop_confined len hr.1.1 hend hok

theorem Isolated.ptCopy_sound (h : s.Isolated K) (hp : UserPid pid) (huva : uva < 2 ^ 32)
    (hbuf : dir = .copyin → K.Buffer kva len)
    (hconf : ∀ a ∈ (s.ptCopy dir pid uva kva len).2.2, a.Confined pid) :
    ((s.ptCopy dir pid uva kva len).2.2 = [] ∨
      uva + len ≤ vmUserHi ∧ AllocsSucceed (s.ptCopy dir pid uva kva len).2.2) ∧
    ∀ a ∈ (s.ptCopy dir pid uva kva len).2.2, a.st.Isolated K := by
  unfold ptCopy at hconf ⊢
  by_cases hr : copyRejected uva kva len
  · rw [if_pos hr]
    exact ⟨.inl rfl, nofun⟩
  · rw [if_neg hr] at hconf ⊢
    unfold copyRejected at hr
    push Not at hr
    obtain ⟨hlen, hok, hiso⟩ :=
      Isolated.copyLoop_sound hp len h hr.1.1 huva (le_refl len) hbuf hconf
    refine ⟨?_, hiso⟩
    rcases hlen with rfl | hend
    · exact .inl rfl
    · exact .inr ⟨hend, hok⟩

/-- The first access of a copy that passes the checks. -/
theorem ptCopy_first (s : Vm) (dir : CopyDir) (pid : ℕ) (hlen : len ≠ 0)
    (hr : ¬ copyRejected uva kva len) :
    ∃ a ∈ (s.ptCopy dir pid uva kva len).2.2, a.alloc = (s.walk pid uva).2.2 := by
  obtain ⟨n, rfl⟩ := Nat.exists_eq_succ_of_ne_zero hlen
  rw [ptCopy, if_neg hr, copyLoop_succ hlen]
  exact ⟨_, mem_cons_self, rfl⟩

/-! ### The calls of `sys_read` and `sys_write` -/

end Vm

/-- The error numbers `sys_read` and `sys_write` set. -/
inductive CopyErrno where
  | E_SUCC
  | E_BADF
  | E_INVAL_ADDR
  deriving DecidableEq, Repr

/-- `sizeof(kern_buf)`. -/
def kernBufSize : ℕ := 10000

/-- `NOFILE`. -/
def nofile : ℕ := 16

/-- A call of `sys_read` or `sys_write`: the arguments, whether the descriptor is
open, and what the file layer answers: its result and the contents of
`kern_buf` it leaves. -/
structure BufferCall where
  fd : ℕ
  userBuf : ℕ
  n : ℕ
  opened : Bool
  result : ℤ
  data : ℕ → UInt8

namespace Vm

/-- The common argument checks. -/
def bufferError (c : BufferCall) : Option CopyErrno :=
  if nofile ≤ c.fd then some .E_BADF
  else if c.userBuf < vmUserLo ∨ (c.userBuf + c.n) % 2 ^ 32 > vmUserHi ∨ c.n > kernBufSize then
    some .E_INVAL_ADDR
  else if c.opened = false then some .E_BADF
  else none

def fillKernBuf (s : Vm) (kernBuf : ℕ) (data : ℕ → UInt8) : Vm :=
  { s with
    mem := fun x =>
      if kernBuf ≤ x ∧ x < kernBuf + kernBufSize then data (x - kernBuf) else s.mem x }

/-- `sys_read`: error number, return value, state and accesses. -/
def sysRead (s : Vm) (kernBuf pid : ℕ) (c : BufferCall) : CopyErrno × ℤ × Vm × List Access :=
  match bufferError c with
  | some e => (e, -1, s, [])
  | none =>
    let s₁ := s.fillKernBuf kernBuf c.data
    if 0 < c.result then
      let (_, s₂, log) := s₁.ptCopyout kernBuf pid c.userBuf c.result.toNat
      (.E_SUCC, c.result, s₂, log)
    else (.E_SUCC, c.result, s₁, [])

/-- `sys_write`: the copy comes first, the file layer then reads `kern_buf`. -/
def sysWrite (s : Vm) (kernBuf pid : ℕ) (c : BufferCall) : CopyErrno × ℤ × Vm × List Access :=
  match bufferError c with
  | some e => (e, -1, s, [])
  | none =>
    let (_, s₁, log) := s.ptCopyin pid c.userBuf kernBuf c.n
    (.E_SUCC, c.result, s₁, log)

theorem sysRead_log (s : Vm) (kernBuf pid : ℕ) (c : BufferCall) : (s.sysRead kernBuf pid c).2.2.2 =
      if bufferError c = none ∧ 0 < c.result then
        ((s.fillKernBuf kernBuf c.data).ptCopyout kernBuf pid c.userBuf c.result.toNat).2.2
      else [] := by
  unfold sysRead
  cases bufferError c with
  | some e => simp
  | none => by_cases hres : 0 < c.result <;> simp [hres]

theorem sysWrite_log (s : Vm) (kernBuf pid : ℕ) (c : BufferCall) :
    (s.sysWrite kernBuf pid c).2.2.2 =
      if bufferError c = none then (s.ptCopyin pid c.userBuf kernBuf c.n).2.2 else [] := by
  unfold sysWrite
  cases bufferError c with
  | some | none => simp

end Vm

/-- The user copies: direct calls, and the ones `sys_read` and `sys_write` make. -/
inductive UserCopy where
  | copyin (uva kva len : ℕ)
  | copyout (kva uva len : ℕ)
  | sysRead (c : BufferCall)
  | sysWrite (c : BufferCall)

namespace UserCopy

open Vm

/-- The accesses of a copy for process `pid`. -/
def log (kernBuf pid : ℕ) (s : Vm) : UserCopy → List Access
  | .copyin uva kva len => (s.ptCopyin pid uva kva len).2.2
  | .copyout kva uva len => (s.ptCopyout kva pid uva len).2.2
  | .sysRead c => (s.sysRead kernBuf pid c).2.2.2
  | .sysWrite c => (s.sysWrite kernBuf pid c).2.2.2

/-- The user address of a copy. -/
def uva : UserCopy → ℕ
  | .copyin uva _ _ => uva
  | .copyout _ uva _ => uva
  | .sysRead c => c.userBuf
  | .sysWrite c => c.userBuf

/-- The number of bytes of a copy. -/
def len : UserCopy → ℕ
  | .copyin _ _ len => len
  | .copyout _ _ len => len
  | .sysRead c => c.result.toNat
  | .sysWrite c => c.n

/-- The kernel side of a copy is a kernel buffer. -/
def KernelSide (K : KernelImage) (kernBuf : ℕ) : UserCopy → Prop
  | .copyin _ kva len => K.Buffer kva len
  | .copyout _ _ _ => True
  | .sysRead _ => K.Buffer kernBuf kernBufSize
  | .sysWrite _ => K.Buffer kernBuf kernBufSize

/-- Every byte touched on the user side lies in a frame that `pid` maps in the
user range. -/
def Confined (kernBuf pid : ℕ) (s : Vm) (c : UserCopy) : Prop :=
  ∀ a ∈ c.log kernBuf pid s, a.Confined pid

/-- The copy touches nothing, or it ends inside the user range without overflow
and all its `alloc_page` calls succeed. -/
def Sound (kernBuf pid : ℕ) (s : Vm) (c : UserCopy) : Prop :=
  c.log kernBuf pid s = [] ∨ c.uva + c.len ≤ vmUserHi ∧ AllocsSucceed (c.log kernBuf pid s)

variable {K : KernelImage} {kernBuf pid : ℕ} {s : Vm}

/-- Filling `kern_buf` keeps isolation. -/
theorem isolated_fillKernBuf (h : s.Isolated K) (hbuf : K.Buffer kernBuf kernBufSize)
    (data : ℕ → UInt8) : (s.fillKernBuf kernBuf data).Isolated K := by
  obtain ⟨hb, hb'⟩ := hbuf
  unfold vmUserLo at hb
  refine h.of_mem ?_ ?_
  · intro p d hu hd x hx
    have hr := (h.table_range hu hd).1
    unfold userLoPi at hr
    exact if_neg (by omega)
  · intro x hx hx'
    exact if_neg (by omega)

theorem log_copyout (kernBuf pid : ℕ) (s : Vm) (kva uva len : ℕ) :
    (copyout kva uva len).log kernBuf pid s = (s.ptCopy .copyout pid uva kva len).2.2 := rfl

theorem log_sysWrite (kernBuf pid : ℕ) (s : Vm) {c : BufferCall} (hc : bufferError c = none) :
    (sysWrite c).log kernBuf pid s = (s.ptCopy .copyin pid c.userBuf kernBuf c.n).2.2 :=
  (sysWrite_log s kernBuf pid c).trans (if_pos hc)

/-- Every user copy is empty or one `pt_copyin` or `pt_copyout`. -/
theorem log_cases (kernBuf pid : ℕ) (s : Vm) (c : UserCopy) :
    c.log kernBuf pid s = [] ∨
    ∃ (dir : CopyDir) (s1 : Vm) (kva : ℕ), c.log kernBuf pid s = (s1.ptCopy dir pid c.uva kva c.len).2.2 ∧
      ∀ K : KernelImage, c.KernelSide K kernBuf →
        (s.Isolated K → s1.Isolated K) ∧ (dir = .copyin → K.Buffer kva c.len) := by
  cases c with
  | copyin uva kva len =>
    exact .inr ⟨.copyin, s, kva, rfl, fun K hk => ⟨fun h => h, fun _ => hk⟩⟩
  | copyout kva uva len =>
    exact .inr ⟨.copyout, s, kva, rfl, fun K hk => ⟨fun h => h, fun hd => by cases hd⟩⟩
  | sysRead c =>
    by_cases hc : bufferError c = none ∧ 0 < c.result
    · exact .inr ⟨.copyout, s.fillKernBuf kernBuf c.data, kernBuf,
        (sysRead_log s kernBuf pid c).trans (if_pos hc),
        fun K hk => ⟨fun h => isolated_fillKernBuf h hk c.data, fun hd => by cases hd⟩⟩
    · exact .inl ((sysRead_log s kernBuf pid c).trans (if_neg hc))
  | sysWrite c =>
    by_cases hc : bufferError c = none
    · refine .inr ⟨.copyin, s, kernBuf, log_sysWrite kernBuf pid s hc,
        fun K hk => ⟨fun h => h, fun _ => ?_⟩⟩
      -- `n` passed the test against `sizeof(kern_buf)`
      have hn : c.n ≤ kernBufSize := by
        unfold bufferError at hc
        split_ifs at hc with h1 h2 h3
        omega
      obtain ⟨hb, hb'⟩ := hk
      unfold KernelImage.Buffer len
      dsimp only
      omega
    · exact .inl ((sysWrite_log s kernBuf pid c).trans (if_neg hc))

/-- **User copies stay inside the target process exactly when they are sound.**
Sound copies are confined from every state; from an isolated state only they
are, and then every frame touched is a normal allocated one that no other
process's structures name. -/
theorem userCopy_confined_iff (K : KernelImage) (kernBuf pid : ℕ) (hp : 1 ≤ pid)
    (hp' : pid < numIds) (c : UserCopy) (huva : c.uva < 2 ^ 32) (s : Vm) :
    (c.Sound kernBuf pid s → c.Confined kernBuf pid s) ∧
    (s.Isolated K → c.KernelSide K kernBuf →
      (c.Confined kernBuf pid s ↔ c.Sound kernBuf pid s) ∧
      (c.Sound kernBuf pid s → ∀ a ∈ c.log kernBuf pid s, ∀ k, k < a.size →
        a.st.pmm.tbl.atIsNorm ((a.pa + k) / 4096) = true ∧
        a.st.pmm.tbl.atIsAllocated ((a.pa + k) / 4096) = true ∧
        ∀ r, a.st.Names r ((a.pa + k) / 4096) → ∃ d t, r = .page pid d t)) := by
  have hsuff : c.Sound kernBuf pid s → c.Confined kernBuf pid s := by
    intro hsound a ha
    rcases hsound with hnil | ⟨hend, hok⟩
    · rw [hnil] at ha
      exact absurd ha not_mem_nil
    · rcases log_cases kernBuf pid s c with hnil | ⟨dir, s₁, kva, hlog, _⟩
      · rw [hnil] at ha
        exact absurd ha not_mem_nil
      · rw [hlog] at hok ha
        exact ptCopy_confined s₁ hend hok a ha
  -- in an isolated state a confined copy is sound and stays in isolated states
  have hnec : s.Isolated K → c.KernelSide K kernBuf → c.Confined kernBuf pid s →
      c.Sound kernBuf pid s ∧ ∀ a ∈ c.log kernBuf pid s, a.st.Isolated K := by
    intro hiso hside hconf
    rcases log_cases kernBuf pid s c with hnil | ⟨dir, s₁, kva, hlog, hk⟩
    · refine ⟨.inl hnil, fun a ha => ?_⟩
      rw [hnil] at ha
      exact absurd ha not_mem_nil
    · obtain ⟨hiso₁, hbuf⟩ := hk K hside
      unfold Confined at hconf
      unfold Sound
      rw [hlog] at hconf ⊢
      exact (hiso₁ hiso).ptCopy_sound ⟨hp, hp'⟩ huva hbuf hconf
  refine ⟨hsuff, fun hiso hside => ⟨⟨fun hc => (hnec hiso hside hc).1, hsuff⟩, ?_⟩⟩
  intro hsound a ha k hk
  have hiso' := (hnec hiso hside (hsuff hsound)).2 a ha
  obtain ⟨va, hlo, hhi, hodd, hf⟩ := hsuff hsound a ha k hk
  have hn := names_of_va (userSlot_of_va ⟨hp, hp'⟩ hlo hhi) (s := a.st) (by omega)
  rw [hf] at hn
  refine ⟨(hiso'.named _ _ hn).1, (hiso'.named _ _ hn).2, fun r hr => ?_⟩
  exact ⟨_, _, hiso'.distinct _ _ _ hr hn⟩

/-- The first process, created with quota `0`. -/
def poorProcess : Vm := sampleBoot.exec (.split 0 0)

theorem run_poorProcess : Relation.ReflTransGen Step sampleBoot poorProcess := run_split 0

theorem isolated_poorProcess : poorProcess.Isolated sampleImage :=
  isolated_of_run (isolated_pdirInitKern _ _ _ _) run_poorProcess

theorem userCopy_confined_iff_poorProcess :
    (UserCopy.copyin 0x40000000 0x300000 16).Confined 0x300000 1 poorProcess ↔
      (UserCopy.copyin 0x40000000 0x300000 16).Sound 0x300000 1 poorProcess :=
  ((userCopy_confined_iff sampleImage 0x300000 1 (le_refl 1) (by decide)
    (.copyin 0x40000000 0x300000 16) (by decide) poorProcess).2 isolated_poorProcess
    ⟨by decide, .inl (by decide)⟩).1

/-- Without quota a missing page stays missing. -/
theorem walk_of_no_quota {va : ℕ} (hentry : s.getPtblEntryByVa pid va = 0)
    (hempty : (s.pmm.CONTAINER pid).usage = (s.pmm.CONTAINER pid).quota) :
    (s.walk pid va).2.2 = some magicNumber := by
  have hnone : (s.containerAlloc pid).1 = 0 := by
    unfold Vm.containerAlloc Pmm.containerAlloc
    simp only [if_pos hempty]
  have hfail : (s.allocPage pid va 7).1 = magicNumber := by
    unfold Vm.allocPage
    simp only [if_pos hnone]
  unfold walk
  rw [if_pos (by rw [hentry])]
  exact congrArg some hfail

/-- A process with quota `0` cannot get its first page. -/
theorem walk_poorProcess : (poorProcess.walk 1 0x40000000).2.2 = some magicNumber := by
  have hdir : poorProcess.getPdirEntry 1 256 = 0 := by
    rw [poorProcess, pdir_split]
    exact sampleBoot_pdir ⟨by decide, by decide, by decide, by decide⟩
  refine walk_of_no_quota (if_pos hdir) ?_
  rw [poorProcess, pmm_split, sampleBoot_pmm]
  rfl

/-- The quota of process `1` is used up, so `alloc_page` fails and the copy writes
to frame `0`; and `sys_write` of the last page of the address space, whose end
wraps to `0`, reads a kernel frame. -/
theorem userCopy_leaves_process :
    Relation.ReflTransGen Step sampleBoot poorProcess ∧
    ¬ (UserCopy.copyout 0x300000 0x40000000 1).Confined 0x300000 1 poorProcess ∧
    ¬ (UserCopy.sysWrite ⟨3, 0xFFFFF000, 0x1000, true, 0x1000, fun _ => 0⟩).Confined
        0x300000 1 poorProcess := by
  refine ⟨run_poorProcess, fun hconf => ?_, fun hconf => ?_⟩
  · unfold Confined at hconf
    rw [log_copyout] at hconf
    obtain ⟨a, ha, halloc⟩ := ptCopy_first poorProcess .copyout 1 Nat.one_ne_zero
      (show ¬ copyRejected 0x40000000 0x300000 1 by decide)
    obtain ⟨hsound, _⟩ := isolated_poorProcess.ptCopy_sound ⟨le_refl 1, by decide⟩ (by decide)
      (fun hd => by cases hd) hconf
    rcases hsound with hnil | ⟨_, hok⟩
    · rw [hnil] at ha
      exact absurd ha not_mem_nil
    · exact hok a ha (halloc.trans walk_poorProcess)
  · have hbuf : sampleImage.Buffer 0x300000 0x1000 := ⟨by decide, .inl (by decide)⟩
    unfold Confined at hconf
    rw [log_sysWrite 0x300000 1 poorProcess (by decide)] at hconf
    dsimp only at hconf
    obtain ⟨a, ha, _⟩ := ptCopy_first poorProcess .copyin 1
      (show 0x1000 ≠ 0 by decide) (show ¬ copyRejected 0xFFFFF000 0x300000 0x1000 by decide)
    obtain ⟨hsound, _⟩ := isolated_poorProcess.ptCopy_sound ⟨le_refl 1, by decide⟩ (by decide)
      (fun _ => hbuf) hconf
    rcases hsound with hnil | ⟨hend, _⟩
    · rw [hnil] at ha
      exact absurd ha not_mem_nil
    · exact absurd hend (by decide)

end UserCopy

end Mcertikos
