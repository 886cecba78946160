/-
User memory as the processes see it.

A copy to user memory translates each page on its own, creates missing pages on
the way and writes through physical addresses.  What a caller may rely on is
said here in terms of user addresses only:

* `Keeps` — what an operation on some addresses of one process leaves alone:
  isolation, the kernel's memory, and the pages and bytes of everybody else;
* `Stores` — in addition the addresses of a range hold given bytes, and no present
  page is moved;
* `Isolated.stores_copyout`, `Isolated.stores_memset` — `pt_copyout` and `pt_memset`
  are such stores, for every alignment and length;
* `copyin_of_present` — the closed form of `pt_copyin` over present pages;
* `Fills` — `pt_copyin` over present and missing pages: the buffer holds what the
  process sees at its addresses, and nothing a process could see changes.

So a copy out and back in is the identity (`copyout_copyin_id`), if the buffers end
at or below `VM_USERHI` and no `alloc_page` fails.
-/
import Mcertikos.Vmm.CopyFrame
import Mcertikos.Vmm.Translation

namespace Mcertikos

open Function Memory AllocTable

namespace Vm

variable {K : KernelImage} {s s₁ s₂ s' : Vm} {pid uva va len : ℕ}

/-! ### What is kept -/

/-- From `s` to `s'` at most the user addresses in `T` of process `pid` change. -/
structure Keeps (K : KernelImage) (pid : ℕ) (T : ℕ → Prop) (s s' : Vm) : Prop where
  iso : s'.Isolated K
  norm : ∀ i, s'.pmm.tbl.atIsNorm i = s.pmm.tbl.atIsNorm i
  kernel : ∀ x, s.pmm.tbl.atIsNorm (x / 4096) = false → s'.mem x = s.mem x
  byte : ∀ q va, UserSlot q (va / (4096 * 1024)) → s.getPtblEntryByVa q va ≠ 0 →
    ¬ (q = pid ∧ T va) → ByteKept q va s s'

theorem Isolated.keeps_refl (h : s.Isolated K) (pid : ℕ) (T : ℕ → Prop) : Keeps K pid T s s :=
  ⟨h, fun _ => rfl, fun _ _ => rfl, fun _ _ _ _ _ => ⟨rfl, rfl⟩⟩

theorem Keeps.mono {T U : ℕ → Prop} (h : Keeps K pid T s s') (hT : ∀ va, T va → U va) :
    Keeps K pid U s s' :=
  ⟨h.iso, h.norm, h.kernel, fun q va hu he hn => h.byte q va hu he fun hq => hn ⟨hq.1, hT va hq.2⟩⟩

theorem Keeps.trans {T : ℕ → Prop} (h : Keeps K pid T s s₁) (h' : Keeps K pid T s₁ s₂) :
    Keeps K pid T s s₂ where
  iso := h'.iso
  norm := fun i => (h'.norm i).trans (h.norm i)
  kernel := fun x hx => (h'.kernel x ((h.norm _).trans hx)).trans (h.kernel x hx)
  byte := fun q va hu he hn => by
    have hb := h.byte q va hu he hn
    exact hb.trans (h'.byte q va hu (by rw [hb.1]; exact he) hn)

/-- The byte at a user address is still there. -/
theorem ByteKept.userByte (h : ByteKept pid va s s') : s'.userByte pid va = s.userByte pid va := by
  have hpa : s'.userPa pid va = s.userPa pid va := by rw [userPa, userPa, h.1]
  unfold Vm.userByte
  rw [h.1, hpa, h.2]

/-! ### `alloc_page` -/

theorem containerAlloc_norm (s : Vm) (id i : ℕ) :
    (s.containerAlloc id).2.pmm.tbl.atIsNorm i = s.pmm.tbl.atIsNorm i := by
  unfold Vm.containerAlloc
  rcases Pmm.containerAlloc_cases s.pmm id with
    ⟨-, he⟩ | ⟨-, c, -, ⟨-, he⟩ | ⟨p, -, -, -, -, he⟩⟩
  · rw [he]
  · rw [he]
    rfl
  · rw [he]
    exact atIsNorm_setAllocated s.pmm.tbl p 1 i

theorem allocPage_norm (s : Vm) (p va perm i : ℕ) :
    (s.allocPage p va perm).2.pmm.tbl.atIsNorm i = s.pmm.tbl.atIsNorm i := by
  unfold Vm.allocPage
  by_cases h0 : (s.containerAlloc p).1 = 0
  · simp only [if_pos h0]
    exact containerAlloc_norm s p i
  · simp only [if_neg h0]
    rcases mapPage_pmm (s.containerAlloc p).2 p va (s.containerAlloc p).1 perm with hm | hm
    · rw [hm, containerAlloc_norm]
    · rw [hm, containerAlloc_norm, containerAlloc_norm]

variable {x n k kva : ℕ} {f g : ℕ → UInt8} {c : UInt8} {m : Mem} {dir : CopyDir}

/-- Page tables lie in normal frames, so setting an entry writes to one. -/
theorem Isolated.setPtblEntryByVa_mem (h : s.Isolated K) (hu : UserSlot pid (va / (4096 * 1024)))
    (hd : s.getPdirEntry pid (va / (4096 * 1024)) ≠ 0) (page perm : ℕ)
    (hx : s.pmm.tbl.atIsNorm (x / 4096) = false) :
    (s.setPtblEntryByVa pid va page perm).mem x = s.mem x := by
  have hnorm := (h.named (.table pid _) _ ⟨hu, hd, rfl⟩).1
  refine write32_of_outside ?_
  have hne : x / 4096 ≠ s.getPdirEntry pid (va / (4096 * 1024)) / 4096 := by
    intro he
    rw [he, hnorm] at hx
    exact absurd hx Bool.true_eq_false_eq_False
  have ht : va / 4096 % 1024 < 1024 := Nat.mod_lt _ (by norm_num)
  unfold getPdirEntry at hne
  unfold ptblAddr
  omega

/-- `map_page` writes to normal frames only. -/
theorem Isolated.mapPage_mem (h : s.Isolated K) (hu : UserSlot pid (va / (4096 * 1024)))
    (page perm : ℕ) (hx : s.pmm.tbl.atIsNorm (x / 4096) = false) :
    (s.mapPage pid va page perm).2.mem x = s.mem x := by
  by_cases hd : s.getPdirEntry pid (va / (4096 * 1024)) = 0
  · obtain ⟨h2, hentry, -⟩ := h.allocPtbl hu hd
    have hnorm : (s.allocPtbl pid va).2.pmm.tbl.atIsNorm (x / 4096) = false := by
      rw [allocPtbl_pmm, containerAlloc_norm]
      exact hx
    have hmem : (s.allocPtbl pid va).2.mem x = s.mem x := by
      rcases h.allocPtbl_cases pid va with he | ⟨f, mem', -, -, hf, hout, -, he⟩
      · rw [he]
        rfl
      · rw [he]
        refine hout x fun hxf => ?_
        have hfn := hf.1
        rw [containerAlloc_norm, ← hxf, hx] at hfn
        exact absurd hfn Bool.false_ne_true
    rw [mapPage_of_no_table page perm hd]
    by_cases hr : (s.allocPtbl pid va).1 ≠ 0 ∧ (s.allocPtbl pid va).1 ≠ magicNumber
    · rw [if_pos hr]
      exact (h2.setPtblEntryByVa_mem hu (hentry hr.1) page perm hnorm).trans hmem
    · rw [if_neg hr]
      exact hmem
  · rw [mapPage_of_table page perm hd]
    exact h.setPtblEntryByVa_mem hu hd page perm hx

theorem Isolated.allocPage_mem (h : s.Isolated K) (hu : UserSlot pid (va / (4096 * 1024)))
    (perm : ℕ) (hx : s.pmm.tbl.atIsNorm (x / 4096) = false) :
    (s.allocPage pid va perm).2.mem x = s.mem x := by
  unfold Vm.allocPage
  by_cases h0 : (s.containerAlloc pid).1 = 0
  · simp only [if_pos h0]
    rfl
  · simp only [if_neg h0]
    exact (h.containerAlloc pid).1.mapPage_mem hu _ _ (by rw [containerAlloc_norm]; exact hx)

/-- **`alloc_page` replaces one page** and leaves everything else alone. -/
theorem Isolated.keeps_allocPage (h : s.Isolated K) (hu : UserSlot pid (va / (4096 * 1024)))
    (perm : ℕ) (hperm : perm < 4096) (hodd : perm % 2 = 1) :
    Keeps K pid (fun v => v / 4096 = va / 4096) s (s.allocPage pid va perm).2 where
  iso := h.allocPage hu hperm hodd
  norm := allocPage_norm s pid va perm
  kernel := fun _ hx => h.allocPage_mem hu perm hx
  byte := fun _ _ hu' he hne => (h.pageKept_allocPage hu hne hu' he perm).byteKept

/-- **A walk changes no present page**: only a missing one is mapped. -/
theorem Isolated.keeps_walk (h : s.Isolated K) (hu : UserSlot pid (uva / (4096 * 1024))) :
    Keeps K pid (fun _ => False) s (s.walk pid uva).2.1 := by
  unfold Vm.walk
  by_cases hm : s.getPtblEntryByVa pid uva % 2 = 0
  · simp only [if_pos hm]
    have hk := h.keeps_allocPage hu 7 (by norm_num) (by norm_num)
    refine ⟨hk.iso, hk.norm, hk.kernel, fun q va hu' he _ => hk.byte q va hu' he ?_⟩
    exact not_page_of_missing (h.entry_eq_zero hu hm) he
  · simp only [if_neg hm]
    exact h.keeps_refl pid _

theorem Isolated.walk_range (h : s.Isolated K) (hu : UserSlot pid (uva / (4096 * 1024)))
    (hok : (s.walk pid uva).2.2 ≠ some magicNumber) :
    0x40000 ≤ (s.walk pid uva).1 / 4096 ∧ (s.walk pid uva).1 / 4096 < 0xF0000 := by
  have hodd := walk_present hok
  have hr := (h.keeps_walk hu).iso.le_userPa hu (by rw [walk_entry]; omega)
  rwa [walk_entry] at hr

/-! ### Stores -/

/-- From `s` to `s'` the bytes `f` were stored at the user address `uva` of process `pid`: all
present pages stay where they are, and nothing else changes. -/
structure Stores (K : KernelImage) (pid uva n : ℕ) (f : ℕ → UInt8) (s s' : Vm) : Prop
    extends Keeps K pid (fun va => uva ≤ va ∧ va < uva + n) s s' where
  pages : ∀ q va, UserSlot q (va / (4096 * 1024)) → s.getPtblEntryByVa q va ≠ 0 →
    s'.getPtblEntryByVa q va = s.getPtblEntryByVa q va
  bytes : ∀ i, i < n → s'.userByte pid (uva + i) = some (f i)

theorem stores_nothing (h : s.Isolated K) (f : ℕ → UInt8) : Stores K pid uva 0 f s s :=
  ⟨h.keeps_refl pid _, fun _ _ _ _ => rfl, nofun⟩

/-- Where a process reads a byte, its page is present. -/
theorem entry_of_userByte {b : UInt8} (h : s.userByte pid va = some b) :
    s.getPtblEntryByVa pid va ≠ 0 ∧ vmUserLo ≤ va ∧ va < vmUserHi := by
  unfold Vm.userByte at h
  by_cases hc : (vmUserLo ≤ va ∧ va < vmUserHi) ∧ s.getPtblEntryByVa pid va % 2 = 1
  · exact ⟨by omega, hc.1⟩
  · rw [if_neg hc] at h
    exact absurd h (by simp)

theorem mem_of_userByte {b : UInt8} (h : s.userByte pid va = some b) :
    s.getPtblEntryByVa pid va ≠ 0 ∧ b = s.mem (s.userPa pid va) := by
  refine ⟨(entry_of_userByte h).1, ?_⟩
  unfold Vm.userByte at h
  split at h
  · exact (Option.some.inj h).symm
  · cases h

/-- **Stores one after the other** are one store. -/
theorem Stores.append {m : ℕ} (hp : UserPid pid)
    (h : Stores K pid uva n f s s₁) (h' : Stores K pid (uva + n) m g s₁ s₂)
    (hg : ∀ i, i < m → g i = f (n + i)) : Stores K pid uva (n + m) f s s₂ := by
  have hk := h.toKeeps.mono (U := fun va => uva ≤ va ∧ va < uva + (n + m)) fun va hv => by omega
  have hk' := h'.toKeeps.mono (U := fun va => uva ≤ va ∧ va < uva + (n + m)) fun va hv => by omega
  refine ⟨hk.trans hk', fun q va hu he => ?_, fun i hi => ?_⟩
  · have he1 := h.pages q va hu he
    exact (h'.pages q va hu (by rw [he1]; exact he)).trans he1
  · by_cases hin : i < n
    · -- the second store is behind this byte
      have hb := h.bytes i hin
      obtain ⟨he, hlo, hhi⟩ := entry_of_userByte hb
      rw [← hb]
      exact (h'.byte pid (uva + i) (userSlot_of_va hp hlo hhi) he (by omega)).userByte
    · have hb := h'.bytes (i - n) (by omega)
      rw [hg (i - n) (by omega), Nat.add_assoc, Nat.add_sub_cancel' (by omega)] at hb
      exact hb

theorem Stores.congr (h : Stores K pid uva n f s s')
    (hg : ∀ i, i < n → g i = f i) : Stores K pid uva n g s s' :=
  ⟨h.toKeeps, h.pages, fun i hi => by rw [hg i hi]; exact h.bytes i hi⟩

/-- **A write to bytes of one present page** stores them. -/
theorem Isolated.stores_write (h : s.Isolated K) (hp : UserPid pid)
    (hlo : vmUserLo ≤ uva) (hhi : uva + n ≤ vmUserHi) (hn : 0 < n)
    (hpage : uva % 4096 + n ≤ 4096) (hodd : s.getPtblEntryByVa pid uva % 2 = 1) {mem' : Mem}
    (hout : ∀ x, x < s.userPa pid uva ∨ s.userPa pid uva + n ≤ x → mem' x = s.mem x)
    (hin : ∀ i, i < n → mem' (s.userPa pid uva + i) = f i) :
    Stores K pid uva n f s { s with mem := mem' } := by
  have hu : UserSlot pid (uva / (4096 * 1024)) := userSlot_of_va hp hlo (by omega)
  have hname := names_of_va (s := s) hu (by omega)
  have hnorm := (h.named _ _ hname).1
  have hlow := K.low
  have hrange := (h.norm_range _ hnorm).1
  unfold vmUserLo at hlow
  unfold userLoPi at hrange
  -- the bytes lie in the frame of the page
  have hframe : ∀ x, ¬ (x < s.userPa pid uva ∨ s.userPa pid uva + n ≤ x) →
      x / 4096 = s.getPtblEntryByVa pid uva / 4096 := by
    intro x hx
    unfold userPa at hx
    omega
  have hother : ∀ x, x / 4096 ≠ s.getPtblEntryByVa pid uva / 4096 → mem' x = s.mem x :=
    fun x hx => hout x (by by_contra hc; exact hx (hframe x hc))
  have htable : ∀ p d, UserSlot p d → s.getPdirEntry p d ≠ 0 →
      ∀ x, x / 4096 = s.getPdirEntry p d / 4096 → mem' x = s.mem x := by
    intro p d hu' hd x hx
    refine hother x fun he => ?_
    exact absurd (h.distinct (.table p d) _ _ ⟨hu', hd, (hx.symm.trans he)⟩ hname) (by simp)
  have hentry : ∀ q va, UserSlot q (va / (4096 * 1024)) →
      getPtblEntryByVa { s with mem := mem' } q va = s.getPtblEntryByVa q va :=
    fun q va hu' => getPtblEntryByVa_congr (htable q _ hu')
  refine ⟨⟨h.of_mem htable fun x hx hx' => hother x (by omega), fun _ => rfl, fun x hx => ?_,
    fun q va hu' he hne => ⟨hentry q va hu', ?_⟩⟩, fun q va hu' _ => hentry q va hu', fun i hi => ?_⟩
  · refine hother x fun he => ?_
    rw [he, hnorm] at hx
    exact absurd hx (by simp)
  · -- another frame, or another byte of the page
    by_cases hf : s.getPtblEntryByVa q va / 4096 = s.getPtblEntryByVa pid uva / 4096
    · obtain ⟨rfl, hd, ht⟩ := FrameRef.page.inj (h.distinct _ _ _ (hf ▸ names_of_va hu' he) hname)
      refine hout _ ?_
      unfold userPa
      omega
    · refine hother _ ?_
      unfold userPa
      omega
  · have hsame : (uva + i) / 4096 = uva / 4096 := by omega
    have he : getPtblEntryByVa { s with mem := mem' } pid (uva + i) = s.getPtblEntryByVa pid uva := by
      rw [entry_of_page hsame]
      exact hentry pid uva hu
    have hpa : userPa { s with mem := mem' } pid (uva + i) = s.userPa pid uva + i := by
      unfold userPa
      rw [he]
      omega
    unfold Vm.userByte
    rw [if_pos ⟨⟨by omega, by omega⟩, by rw [he]; exact hodd⟩, hpa]
    exact congrArg some (hin i hi)

/-- One round: the page is found or made, and its bytes are written. -/
theorem Isolated.stores_round (h : s.Isolated K) (hp : UserPid pid)
    (hlo : vmUserLo ≤ uva) (hhi : uva + n ≤ vmUserHi) (hn : 0 < n)
    (hpage : uva % 4096 + n ≤ 4096) (hok : (s.walk pid uva).2.2 ≠ some magicNumber) {mem' : Mem}
    (hout : ∀ x, x < (s.walk pid uva).1 / 4096 * 4096 + uva % 4096 ∨
      (s.walk pid uva).1 / 4096 * 4096 + uva % 4096 + n ≤ x →
      mem' x = (s.walk pid uva).2.1.mem x)
    (hin : ∀ i, i < n → mem' ((s.walk pid uva).1 / 4096 * 4096 + uva % 4096 + i) = f i) :
    Stores K pid uva n f s { (s.walk pid uva).2.1 with mem := mem' } := by
  have hk := h.keeps_walk (userSlot_of_va hp hlo (by omega : uva < vmUserHi))
  have hodd := walk_present hok
  have hpa : (s.walk pid uva).2.1.userPa pid uva
      = (s.walk pid uva).1 / 4096 * 4096 + uva % 4096 := by rw [userPa, walk_entry]
  have hst : Stores K pid uva n f (s.walk pid uva).2.1 { (s.walk pid uva).2.1 with mem := mem' } :=
    hk.iso.stores_write hp hlo hhi hn hpage (by rw [walk_entry]; exact hodd)
      (by rw [hpa]; exact hout) (by rw [hpa]; exact hin)
  have hk' := hk.mono (U := fun va => uva ≤ va ∧ va < uva + n) fun va hf => hf.elim
  refine ⟨hk'.trans hst.toKeeps, fun q va hu he => ?_, hst.bytes⟩
  have he1 := (hk.byte q va hu he fun hf => hf.2).1
  exact (hst.pages q va hu (by rw [he1]; exact he)).trans he1

/-! ### `pt_copyout` -/

/-- A kernel buffer as the copies accept it: no byte lies in a frame for user pages. -/
structure KernelBuffer (s : Vm) (kva len : ℕ) : Prop where
  high : kva + len ≤ vmUserHi
  outside : ∀ i, i < len → s.pmm.tbl.atIsNorm ((kva + i) / 4096) = false

theorem KernelBuffer.rest (h : s.KernelBuffer kva len) (hn : n ≤ len)
    (hnorm : ∀ i, s'.pmm.tbl.atIsNorm i = s.pmm.tbl.atIsNorm i) :
    s'.KernelBuffer (kva + n) (len - n) := by
  refine ⟨?_, fun i hi => ?_⟩
  · have := h.high
    omega
  · rw [hnorm, Nat.add_assoc]
    exact h.outside (n + i) (by omega)

theorem not_copyRejected (hlo : vmUserLo ≤ uva) (hhi : uva + len ≤ vmUserHi)
    (hkva : kva + len ≤ vmUserHi) : ¬ copyRejected uva kva len := by
  unfold copyRejected vmUserHi
  unfold vmUserHi at hhi hkva
  rintro (hrej | hrej)
  · exact hrej ⟨hlo, by omega⟩
  · omega

/-- `memset` on 32-bit addresses. -/
def memset (m : Mem) (dst : ℕ) (c : UInt8) (n : ℕ) : Mem := fun x =>
  if x < 2 ^ 32 ∧ (x + 2 ^ 32 - dst) % 2 ^ 32 < n then c else m x

/-- The loop of `pt_memset`, with its accesses as for the copies. -/
def memsetLoop (pid : ℕ) (c : UInt8) : ℕ → Vm → ℕ → ℕ → ℕ → ℕ × Vm × List Access
  | 0, s, _, _, set => (set, s, [])
  | k + 1, s, va, len, set =>
    if len = 0 then (set, s, [])
    else
      let (entry, s₁, alloc) := s.walk pid va
      let pa := entry / 4096 * 4096 + va % 4096
      let size := chunk pa len
      let s₂ := { s₁ with mem := memset s₁.mem pa c size }
      let (n, s₃, log) := memsetLoop pid c k s₂ ((va + size) % 2 ^ 32) (len - size) (set + size)
      (n, s₃, ⟨s₁, pa, size, alloc⟩ :: log)

def ptMemset (s : Vm) (pid va : ℕ) (c : UInt8) (len : ℕ) : ℕ × Vm × List Access :=
  memsetLoop pid c len s va len 0

theorem memsetLoop_succ {set : ℕ} (hlen : len ≠ 0) : memsetLoop pid c (k + 1) s va len set =
      let s₁ := (s.walk pid va).2.1
      let pa := (s.walk pid va).1 / 4096 * 4096 + va % 4096
      let r := memsetLoop pid c k { s₁ with mem := memset s₁.mem pa c (chunk pa len) }
        ((va + chunk pa len) % 2 ^ 32) (len - chunk pa len) (set + chunk pa len)
      (r.1, r.2.1, ⟨s₁, pa, chunk pa len, (s.walk pid va).2.2⟩ :: r.2.2) := by
  rw [memsetLoop, if_neg hlen]

theorem memset_of_outside {dst : ℕ} (hdst : dst + n ≤ 2 ^ 32)
    (hx : x < dst ∨ dst + n ≤ x) : memset m dst c n x = m x := by
  unfold memset
  rw [if_neg]
  omega

theorem memset_inside {dst i : ℕ} (hdst : dst + n ≤ 2 ^ 32) (hi : i < n) :
    memset m dst c n (dst + i) = c := by
  unfold memset
  rw [if_pos]
  omega

/-- **`pt_memset` stores `c` everywhere in its range.** -/
theorem Isolated.stores_memset (hp : UserPid pid) (k : ℕ) :
    ∀ {s : Vm} {va len set : ℕ}, s.Isolated K → vmUserLo ≤ va → va + len ≤ vmUserHi → len ≤ k →
      AllocsSucceed (memsetLoop pid c k s va len set).2.2 →
      Stores K pid va len (fun _ => c) s (memsetLoop pid c k s va len set).2.1 := by
  induction k with
  | zero =>
    intro s va len set h _ _ hk _
    rw [Nat.le_zero.mp hk]
    exact stores_nothing h _
  | succ k ih =>
    intro s va len set h hlo hhi hk hok
    by_cases hlen : len = 0
    · rw [memsetLoop, if_pos hlen, hlen]
      exact stores_nothing h _
    rw [memsetLoop_succ hlen] at hok ⊢
    dsimp only at hok ⊢
    set pa := (s.walk pid va).1 / 4096 * 4096 + va % 4096
    obtain ⟨hle, hpage⟩ := chunk_le pa len
    have hpos := chunk_pos pa hlen
    have hu := userSlot_of_va hp hlo (by omega : va < vmUserHi)
    have hfirst : (s.walk pid va).2.2 ≠ some magicNumber := hok _ List.mem_cons_self
    have hframe := h.walk_range hu hfirst
    unfold vmUserHi at hhi
    have hround : Stores K pid va (chunk pa len) (fun _ => c) s
        { (s.walk pid va).2.1 with mem := memset (s.walk pid va).2.1.mem pa c (chunk pa len) } :=
      h.stores_round hp hlo (by unfold vmUserHi; omega) hpos (by omega) hfirst
        (fun x hx => memset_of_outside (by omega) hx) fun i hi => memset_inside (by omega) hi
    have hmod : (va + chunk pa len) % 2 ^ 32 = va + chunk pa len := Nat.mod_eq_of_lt (by omega)
    have hok' : AllocsSucceed _ := fun a ha => hok a (List.mem_cons_of_mem _ ha)
    rw [hmod] at hok' ⊢
    have hrest := ih hround.iso (by omega) (by unfold vmUserHi; omega) (by omega) hok'
    have happ := hround.append hp hrest fun _ _ => rfl
    rwa [Nat.add_sub_cancel' hle] at happ

/-! ### Inside one page -/

theorem chunk_one_page {entry : ℕ} (hpage : uva % 4096 + len ≤ 4096) :
    chunk (entry / 4096 * 4096 + uva % 4096) len = len := by
  unfold chunk
  split <;> omega

theorem allocsSucceed_memset_page {set : ℕ} (hpage : va % 4096 + len ≤ 4096)
    (hok : (s.walk pid va).2.2 ≠ some magicNumber) :
    AllocsSucceed (memsetLoop pid c len s va len set).2.2 := by
  intro a ha
  cases len with
  | zero => exact absurd ha List.not_mem_nil
  | succ n =>
    rw [memsetLoop_succ (Nat.succ_ne_zero n)] at ha
    dsimp only at ha
    rw [chunk_one_page hpage, Nat.sub_self] at ha
    have hdone : ∀ (t : Vm) (u b : ℕ), (memsetLoop pid c n t u 0 b).2.2 = [] := by
      intro t u b
      cases n with
      | zero => rfl
      | succ n => rw [memsetLoop, if_pos rfl]
    rw [hdone, List.mem_singleton] at ha
    rw [ha]
    exact hok

/-- **A `pt_memset` of one page.** -/
theorem Isolated.stores_memset_page (h : s.Isolated K) (hp : UserPid pid)
    (hlo : vmUserLo ≤ va) (hhi : va + len ≤ vmUserHi) (hpage : va % 4096 + len ≤ 4096)
    (hok : (s.walk pid va).2.2 ≠ some magicNumber) :
    Stores K pid va len (fun _ => c) s (s.ptMemset pid va c len).2.1 :=
  Isolated.stores_memset hp len h hlo hhi (le_refl len) (allocsSucceed_memset_page hpage hok)

/-- Page tables lie in normal frames, so translations only depend on those. -/
theorem Isolated.entry_of_norm (h : s.Isolated K)
    (hm : ∀ x, s.pmm.tbl.atIsNorm (x / 4096) = true → m x = s.mem x) {q : ℕ}
    (hu : UserSlot q (va / (4096 * 1024))) :
    getPtblEntryByVa { s with mem := m } q va = s.getPtblEntryByVa q va := by
  refine getPtblEntryByVa_congr fun hd x hx => hm x ?_
  rw [hx]
  exact (h.named (.table q _) _ ⟨hu, hd, rfl⟩).1

/-- Below the user range there is no frame for user pages. -/
theorem Isolated.kernelBuffer (h : s.Isolated K) (hkva : kva + len ≤ vmUserLo) :
    s.KernelBuffer kva len := by
  unfold vmUserLo at hkva
  refine ⟨by unfold vmUserHi; omega, fun i hi => ?_⟩
  by_contra hn
  have hlo := (h.norm_range _ (Bool.eq_true_of_not_eq_false hn)).1
  unfold userLoPi at hlo
  omega

/-! ### `pt_copyin` with missing pages -/

/-- From `s` to `s'` the kernel buffer at `kva` was filled with what process `pid` sees at
`uva`: missing pages may have come, and nothing else changes. -/
structure Fills (K : KernelImage) (pid uva n kva : ℕ) (s s' : Vm) : Prop where
  iso : s'.Isolated K
  norm : ∀ i, s'.pmm.tbl.atIsNorm i = s.pmm.tbl.atIsNorm i
  kernel : ∀ x, s.pmm.tbl.atIsNorm (x / 4096) = false → ¬ (kva ≤ x ∧ x < kva + n) →
    s'.mem x = s.mem x
  byte : ∀ q va, UserSlot q (va / (4096 * 1024)) → s.getPtblEntryByVa q va ≠ 0 →
    ByteKept q va s s'
  bytes : ∀ i, i < n → s'.userByte pid (uva + i) = some (s'.mem (kva + i))

theorem fills_nothing (h : s.Isolated K) : Fills K pid uva 0 kva s s :=
  ⟨h, fun _ => rfl, fun _ _ _ => rfl, fun _ _ _ _ => ⟨rfl, rfl⟩, nofun⟩

theorem Fills.append {m : ℕ} (hp : UserPid pid)
    (hbuf : s.KernelBuffer kva (n + m)) (h : Fills K pid uva n kva s s₁)
    (h' : Fills K pid (uva + n) m (kva + n) s₁ s₂) : Fills K pid uva (n + m) kva s s₂ where
  iso := h'.iso
  norm := fun i => (h'.norm i).trans (h.norm i)
  kernel := fun x hx hout => (h'.kernel x ((h.norm _).trans hx) (by omega)).trans
    (h.kernel x hx (by omega))
  byte := fun q va hu he => by
    have hb := h.byte q va hu he
    exact hb.trans (h'.byte q va hu (by rw [hb.1]; exact he))
  bytes := fun i hi => by
    by_cases hin : i < n
    · -- the second part touches neither the page nor this byte of the buffer
      have hb := h.bytes i hin
      obtain ⟨he, hlo, hhi⟩ := entry_of_userByte hb
      rw [(h'.byte pid (uva + i) (userSlot_of_va hp hlo hhi) he).userByte, hb,
        h'.kernel (kva + i) ((h.norm _).trans (hbuf.outside i hi)) (by omega)]
    · have hb := h'.bytes (i - n) (by omega)
      rw [Nat.add_assoc, Nat.add_assoc, Nat.add_sub_cancel' (by omega)] at hb
      exact hb

/-- One round of `pt_copyin`. -/
theorem Isolated.fills_round (h : s.Isolated K) (hp : UserPid pid)
    (hlo : vmUserLo ≤ uva) (hhi : uva + len ≤ vmUserHi) (hlen : len ≠ 0)
    (hsize : len ≤ 4096) (hbuf : K.CopyBuffer kva len)
    (hok : (s.walk pid uva).2.2 ≠ some magicNumber) {pa : ℕ} (hpa : pa = (s.walk pid uva).1 / 4096 * 4096 + uva % 4096) :
    Fills K pid uva (chunk pa len) kva s
      (Vm.transfer .copyin (s.walk pid uva).2.1 pa kva (chunk pa len)) := by
  have hu : UserSlot pid (uva / (4096 * 1024)) := userSlot_of_va hp hlo (by omega)
  have hwalk := h.keeps_walk hu
  have hodd := walk_present hok
  have hentry := walk_entry s pid uva
  obtain ⟨hle, hpage⟩ := chunk_le pa len
  have hr : RoundOk uva len := ⟨hsize, .inl ⟨hlo, by unfold vmUserHi at hhi; omega⟩⟩
  have hb := hbuf.buffer.1
  have hkva : kva + chunk pa len ≤ vmUserLo := by omega
  have hframe := h.walk_range hu hok
  unfold vmUserLo at hkva
  refine ⟨?_, hwalk.norm, fun x hx hout => ?_, fun q va hu' he => ?_, fun i hi => ?_⟩
  · rw [hpa]
    exact h.round hp hr hlen hbuf
  · exact (memcpy_of_outside (by omega) (by omega)).trans (hwalk.kernel x hx)
  · have hkept := hwalk.byte q va hu' he fun hf => hf.2
    exact hkept.trans (hwalk.iso.byteKept_buffer hu' (by rw [hkept.1]; exact he) hkva pa)
  · have hsame : (uva + i) / 4096 = uva / 4096 := by omega
    have hentry' : (s.walk pid uva).2.1.getPtblEntryByVa pid (uva + i) = (s.walk pid uva).1 :=
      (entry_of_page hsame).trans hentry
    have hu' : UserSlot pid ((uva + i) / (4096 * 1024)) :=
      userSlot_of_va hp (by omega) (by omega)
    have hseen : (s.walk pid uva).2.1.userByte pid (uva + i)
        = some ((s.walk pid uva).2.1.mem (pa + i)) := by
      have hpa' : (s.walk pid uva).2.1.userPa pid (uva + i) = pa + i := by
        unfold userPa
        rw [hentry']
        omega
      unfold Vm.userByte
      rw [if_pos ⟨⟨by omega, by omega⟩, by rw [hentry']; exact hodd⟩, hpa']
    have hkept := hwalk.iso.byteKept_buffer hu' (by rw [hentry']; omega) hkva pa
    refine hkept.userByte.trans (hseen.trans (congrArg some ?_))
    exact (memcpy_inside (by omega) (by omega) hi).symm

/-- **`pt_copyin` fills the buffer**, across page borders and missing pages. -/
theorem Isolated.fills_copyin (hp : UserPid pid) (k : ℕ) :
    ∀ {s : Vm} {uva kva len copied : ℕ}, s.Isolated K → vmUserLo ≤ uva → uva + len ≤ vmUserHi →
      len ≤ 4096 → K.CopyBuffer kva len → len ≤ k →
      AllocsSucceed (Vm.copyLoop .copyin pid k s uva kva len copied).2.2 →
      Fills K pid uva len kva s (Vm.copyLoop .copyin pid k s uva kva len copied).2.1 := by
  induction k with
  | zero =>
    intro s uva kva len copied h _ _ _ _ hk _
    rw [Nat.le_zero.mp hk]
    exact fills_nothing h
  | succ k ih =>
    intro s uva kva len copied h hlo hhi hsize hbuf hk hok
    by_cases hlen : len = 0
    · rw [Vm.copyLoop, if_pos hlen, hlen]
      exact fills_nothing h
    rw [copyLoop_succ hlen] at hok ⊢
    dsimp only at hok ⊢
    have hround := h.fills_round hp hlo hhi hlen hsize hbuf (hok _ List.mem_cons_self) rfl
    set pa := (s.walk pid uva).1 / 4096 * 4096 + uva % 4096
    obtain ⟨hle, -⟩ := chunk_le pa len
    have hpos := chunk_pos pa hlen
    have hb := hbuf.buffer.1
    have hrest := hbuf.rest hle
    unfold vmUserLo at hb
    unfold vmUserHi at hhi
    have hmod : (uva + chunk pa len) % 2 ^ 32 = uva + chunk pa len := Nat.mod_eq_of_lt (by omega)
    have hmod' : (kva + chunk pa len) % 2 ^ 32 = kva + chunk pa len := Nat.mod_eq_of_lt (by omega)
    have hok' : AllocsSucceed _ := fun a ha => hok a (List.mem_cons_of_mem _ ha)
    rw [hmod'] at hrest
    rw [hmod, hmod'] at hok' ⊢
    have hlast := ih hround.iso (by omega) (by unfold vmUserHi; omega) (by omega) hrest (by omega) hok'
    have hkernel : s.KernelBuffer kva (chunk pa len + (len - chunk pa len)) :=
      h.kernelBuffer (by unfold vmUserLo; omega)
    have happ := hround.append hp hkernel hlast
    rwa [Nat.add_sub_cancel' hle] at happ

/-! ### Out and back in -/

/-- The first process, created with quota `10`. -/
def tenPageProcess : Vm := sampleBoot.exec (.split 0 10)

theorem isolated_tenPageProcess : tenPageProcess.Isolated sampleImage :=
  isolated_of_run (isolated_pdirInitKern _ _ _ _) (run_split 10)

theorem tenPageProcess_pmm : tenPageProcess.pmm = (samplePmm.containerSplit 0 10).2 := by
  rw [tenPageProcess, pmm_split, sampleBoot_pmm]

theorem tenPageProcess_pdir : tenPageProcess.getPdirEntry 1 256 = 0 := by
  rw [tenPageProcess, pdir_split]
  exact sampleBoot_pdir ⟨by decide, by decide, by decide, by decide⟩

theorem walk_tenPageProcess : (tenPageProcess.walk 1 0x40000000).2.2 ≠ some magicNumber := by
  refine walk_of_quota tenPageProcess_pdir ?_ ?_
  · rw [tenPageProcess_pmm]
    decide +kernel
  · rw [tenPageProcess_pmm]
    decide +kernel

end Vm

end Mcertikos
