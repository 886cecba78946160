/-
What `sys_sync_recv` lets a receiver see of `msg_buf`.

`ipc_copy` moves a message in rounds of at most 100 bytes through the static buffer
`msg_buf`, and does not look at the result of `pt_copyin`: a round whose source range
is rejected copies out what the buffer held before.  Two kernel states that differ in
`msg_buf` only are followed through the call.

* `ipcCopyLoop_sameOff` — if no round copies out before some round has copied in, the
  two runs differ at most in `msg_buf` again;
* `ipcCopyLoop_first` — a first round that only copies out leaves the first byte of
  `msg_buf` in the receiver's memory;
* `Sync.recv_buffer_unseen_iff` — so the receiver sees nothing of the buffer's history
  exactly if the rounds are `Filled`.

Design notes: sufficiency is proved for all addresses.  Necessity is about a receiver
buffer in the user range whose first page is present or can be allocated: without such
a page the byte goes to a frame that no process maps.
-/
import Mcertikos.Vmm.CopyFrame
import Mcertikos.Ipc.Sync

namespace Mcertikos

open Relation Memory Vm

/-- Number of bytes round `k` of a message copies. -/
def roundLen (length k : ℕ) : ℕ :=
  if length - msgBufSize * k < msgBufSize then length - msgBufSize * k else msgBufSize

/-- Every round whose bytes are copied out comes with or after a round whose bytes
were copied in. -/
def FilledRounds (msgBuf destUserAddr sourceUserAddr length : ℕ) : Prop :=
  ∀ k, msgBufSize * k < length →
    ¬ copyRejected ((destUserAddr + msgBufSize * k) % 2 ^ 32) msgBuf (roundLen length k) →
    ∃ j ≤ k, ¬ copyRejected ((sourceUserAddr + msgBufSize * j) % 2 ^ 32) msgBuf (roundLen length j)

/-- The condition for a whole `ipc_copy`. -/
def Filled (msgBuf destUserAddr sourceUserAddr length : ℕ) : Prop :=
  length < 2 ^ 31 → FilledRounds msgBuf destUserAddr sourceUserAddr length

variable {K : KernelImage} {s s' : Vm} {msgBuf destPid sourcePid : ℕ}

/-! ### Rounds -/

theorem roundLen_zero (length : ℕ) :
    roundLen length 0 = if length < msgBufSize then length else msgBufSize := by
  unfold roundLen
  rw [Nat.mul_zero, Nat.sub_zero]

theorem roundLen_succ (length k : ℕ) :
    roundLen (length - msgBufSize) k = roundLen length (k + 1) := by
  unfold roundLen
  rw [Nat.mul_succ, Nat.sub_sub, Nat.add_comm msgBufSize]

theorem roundLen_zero_le (length : ℕ) :
    roundLen length 0 ≤ length ∧ roundLen length 0 ≤ msgBufSize := by
  rw [roundLen_zero]
  split <;> omega

variable {length kva len : ℕ}

theorem roundLen_zero_ne (h : length ≠ 0) : roundLen length 0 ≠ 0 := by
  rw [roundLen_zero]
  unfold msgBufSize
  split <;> omega

/-- A rejected round copies nothing. -/
theorem ptCopy_of_rejected (s : Vm) (dir : CopyDir) (pid : ℕ) {uva : ℕ}
    (h : copyRejected uva kva len) : (s.ptCopy dir pid uva kva len).2.1 = s := by
  unfold Vm.ptCopy
  rw [if_pos h]

theorem ptCopy_of_accepted (s : Vm) (dir : CopyDir) (pid : ℕ) {uva : ℕ}
    (h : ¬ copyRejected uva kva len) :
    s.ptCopy dir pid uva kva len = Vm.copyLoop dir pid len s uva kva len 0 := by
  unfold Vm.ptCopy
  rw [if_neg h]

theorem ipcCopyLoop_succ (k : ℕ) (s : Vm) (dest src : ℕ) (h : length ≠ 0) :
    ipcCopyLoop msgBuf destPid sourcePid (k + 1) s dest src length =
      ipcCopyLoop msgBuf destPid sourcePid k
        ((s.ptCopy .copyin sourcePid src msgBuf (roundLen length 0)).2.1.ptCopy .copyout destPid dest
          msgBuf (roundLen length 0)).2.1
        ((dest + roundLen length 0) % 2 ^ 32) ((src + roundLen length 0) % 2 ^ 32)
        (length - roundLen length 0) := by
  rw [ipcCopyLoop, if_neg h, roundLen_zero]
  rfl

theorem ipcCopyLoop_of_zero (k : ℕ) (s : Vm) (dest src : ℕ) :
    ipcCopyLoop msgBuf destPid sourcePid k s dest src 0 = s := by
  cases k with
  | zero => rfl
  | succ k => rw [ipcCopyLoop, if_pos rfl]

/-- After a round that copies nothing at all the condition is about the others. -/
theorem FilledRounds.rest {dest src : ℕ} (h : FilledRounds msgBuf dest src length)
    (hin : copyRejected src msgBuf (roundLen length 0)) (hsrc : src < 2 ^ 32) :
    FilledRounds msgBuf ((dest + msgBufSize) % 2 ^ 32) ((src + msgBufSize) % 2 ^ 32)
      (length - msgBufSize) := by
  have haddr : ∀ a k, ((a + msgBufSize) % 2 ^ 32 + msgBufSize * k) % 2 ^ 32
      = (a + msgBufSize * (k + 1)) % 2 ^ 32 := by
    intro a k
    rw [Nat.mod_add_mod, Nat.mul_succ]
    congr 1
    omega
  intro k hk hout
  rw [haddr, roundLen_succ] at hout
  obtain ⟨j, hj, hacc⟩ := h (k + 1) (by rw [Nat.mul_succ]; omega) hout
  cases j with
  | zero =>
    rw [Nat.mul_zero, Nat.add_zero, Nat.mod_eq_of_lt hsrc] at hacc
    exact absurd hin hacc
  | succ j =>
    refine ⟨j, by omega, ?_⟩
    rw [haddr, roundLen_succ]
    exact hacc

/-! ### Two runs -/

theorem Vm.SameOff.mono {lo lo' hi : ℕ} (h : SameOff lo' hi s s') (hle : lo ≤ lo') :
    SameOff lo hi s s' := by
  rw [sameOff_iff] at h ⊢
  exact ⟨h.1, h.2.1, fun x hx => h.2.2 x fun hin => hx ⟨hle.trans hin.1, hin.2⟩⟩

/-- A part of a kernel buffer from its start on. -/
theorem KernelImage.CopyBuffer.take {n : ℕ} (h : K.CopyBuffer kva len) (hn : n ≤ len) :
    K.CopyBuffer kva n := by
  obtain ⟨⟨h1, h2⟩, h3, h4⟩ := h
  exact ⟨⟨by omega, by omega⟩, h3, h4⟩

section TwoRuns

variable (hbuf : K.CopyBuffer msgBuf msgBufSize) (hd : UserPid destPid)
  (hs : UserPid sourcePid)

include hbuf hd hs

variable {dest src length : ℕ}

/-- A round keeps isolation. -/
theorem isolated_round {len : ℕ} (h : s.Isolated K) (hdest : dest < 2 ^ 32)
    (hsrc : src < 2 ^ 32) (hlen : len ≤ msgBufSize) :
    ((s.ptCopy .copyin sourcePid src msgBuf len).2.1.ptCopy .copyout destPid dest msgBuf
      len).2.1.Isolated K := by
  have hle : len ≤ 4096 := hlen.trans (by decide)
  exact (h.ptCopy hs hsrc hle (hbuf.take hlen)).ptCopy hd hdest hle (hbuf.take hlen)

/-- A round that copies in: only bytes of the buffer it did not fill may differ. -/
theorem round_sameOff {len : ℕ} (h : s.Isolated K)
    (hsame : SameOff msgBuf (msgBuf + msgBufSize) s s') (hdest : dest < 2 ^ 32)
    (hsrc : src < 2 ^ 32) (hlen : len ≤ msgBufSize) (hin : ¬ copyRejected src msgBuf len) :
    SameOff (msgBuf + len) (msgBuf + msgBufSize)
      ((s.ptCopy .copyin sourcePid src msgBuf len).2.1.ptCopy .copyout destPid dest msgBuf len).2.1
      ((s'.ptCopy .copyin sourcePid src msgBuf len).2.1.ptCopy .copyout destPid dest msgBuf
        len).2.1 := by
  have hle : len ≤ 4096 := hlen.trans (by decide)
  have hbuf' : K.CopyBuffer msgBuf (msgBuf + msgBufSize - msgBuf) := by
    rwa [Nat.add_sub_cancel_left]
  have hcopied : SameOff (msgBuf + len) (msgBuf + msgBufSize)
      (s.ptCopy .copyin sourcePid src msgBuf len).2.1
      (s'.ptCopy .copyin sourcePid src msgBuf len).2.1 := by
    rw [ptCopy_of_accepted s _ _ hin, ptCopy_of_accepted s' _ _ hin]
    exact h.copyin_sameOff hs hsame (by omega) (roundOk_of_accepted hle hsrc hin) hbuf'
  by_cases hout : copyRejected dest msgBuf len
  · rw [ptCopy_of_rejected _ _ _ hout, ptCopy_of_rejected _ _ _ hout]
    exact hcopied
  · rw [ptCopy_of_accepted _ _ _ hout, ptCopy_of_accepted _ _ _ hout]
    exact Isolated.copyout_sameOff hd len (h.ptCopy hs hsrc hle (hbuf.take hlen)) hcopied
      (le_refl _) (by omega) (roundOk_of_accepted hle hdest hout) hbuf'

/-- **Nothing of the buffer gets out** if no round copies out before one has copied
in: the first full round that copies in makes the two states equal. -/
theorem ipcCopyLoop_sameOff (k : ℕ) : ∀ {s s' : Vm} {dest src length : ℕ}, s.Isolated K →
    SameOff msgBuf (msgBuf + msgBufSize) s s' → dest < 2 ^ 32 → src < 2 ^ 32 →
    FilledRounds msgBuf dest src length →
    SameOff msgBuf (msgBuf + msgBufSize) (ipcCopyLoop msgBuf destPid sourcePid k s dest src length)
      (ipcCopyLoop msgBuf destPid sourcePid k s' dest src length) := by
  induction k with
  | zero => exact fun _ hsame _ _ _ => hsame
  | succ k ih =>
    intro s s' dest src length h hsame hdest hsrc hfilled
    by_cases hlen : length = 0
    · rw [hlen, ipcCopyLoop_of_zero, ipcCopyLoop_of_zero]
      exact hsame
    obtain ⟨hle, hle'⟩ := roundLen_zero_le length
    rw [ipcCopyLoop_succ k s dest src hlen, ipcCopyLoop_succ k s' dest src hlen]
    by_cases hin : copyRejected src msgBuf (roundLen length 0)
    · -- neither copied in nor copied out
      have hout : copyRejected dest msgBuf (roundLen length 0) := by
        by_contra hout
        obtain ⟨j, hj, hacc⟩ := hfilled 0 (by omega)
          (by rwa [Nat.mul_zero, Nat.add_zero, Nat.mod_eq_of_lt hdest])
        rw [Nat.le_zero.mp hj, Nat.mul_zero, Nat.add_zero, Nat.mod_eq_of_lt hsrc] at hacc
        exact hacc hin
      have hrest := hfilled.rest hin hsrc
      simp only [ptCopy_of_rejected _ _ _ hin, ptCopy_of_rejected _ _ _ hout]
      by_cases hshort : length < msgBufSize
      · rw [roundLen_zero, if_pos hshort, Nat.sub_self, ipcCopyLoop_of_zero, ipcCopyLoop_of_zero]
        exact hsame
      · rw [roundLen_zero, if_neg hshort]
        exact ih h hsame (Nat.mod_lt _ (by norm_num)) (Nat.mod_lt _ (by norm_num)) hrest
    · have hround := round_sameOff hbuf hd hs h hsame hdest hsrc hle' hin
      by_cases hshort : length < msgBufSize
      · -- the last round
        have hlast : length - roundLen length 0 = 0 := by
          rw [roundLen_zero, if_pos hshort, Nat.sub_self]
        rw [hlast, ipcCopyLoop_of_zero, ipcCopyLoop_of_zero]
        exact hround.mono (Nat.le_add_right _ _)
      · have hfull : roundLen length 0 = msgBufSize := by rw [roundLen_zero, if_neg hshort]
        rw [hfull] at hround ⊢
        rw [hround.eq_of_empty]
        exact (sameOff_iff).mpr ⟨rfl, rfl, fun _ _ => rfl⟩

omit hs in
/-- A user does not see the kernel's buffer. -/
theorem userByte_sameOff (h : s.Isolated K) (hsame : SameOff msgBuf (msgBuf + msgBufSize) s s') :
    s'.userByte destPid = s.userByte destPid := by
  obtain ⟨m, rfl⟩ := hsame
  funext va
  unfold Vm.userByte
  by_cases hva : vmUserLo ≤ va ∧ va < vmUserHi
  · have hva' : va < 2 ^ 32 := hva.2.trans (by decide)
    have hbuf' : K.Buffer msgBuf (msgBuf + msgBufSize - msgBuf) := by
      rw [Nat.add_sub_cancel_left]
      exact hbuf.buffer
    have hentry := h.overlay_entry (m := m) hd hva' hbuf' (Nat.le_add_right _ _)
    unfold Vm.userPa
    rw [hentry]
    by_cases hodd : s.getPtblEntryByVa destPid va % 2 = 1
    · rw [if_pos ⟨hva, hodd⟩, if_pos ⟨hva, hodd⟩]
      -- the page is above the kernel's memory
      have hrange := (h.le_userPa (userSlot_of_va hd hva.1 hva.2) (by omega)).1
      have hb := hbuf.buffer.1
      unfold vmUserLo at hb
      refine congrArg some (if_neg ?_)
      omega
    · rw [if_neg fun hc => hodd hc.2, if_neg fun hc => hodd hc.2]
  · rw [if_neg fun hc => hva hc.1, if_neg fun hc => hva hc.1]

/-! ### The first byte -/

/-- Rounds for later addresses keep the byte at `va`. -/
theorem ipcCopyLoop_byte {va : ℕ} (hva : vmUserLo ≤ va) (k : ℕ) :
    ∀ {s : Vm} {dest src length : ℕ}, s.Isolated K → va < dest → dest + length ≤ vmUserHi →
      src < 2 ^ 32 → s.getPtblEntryByVa destPid va ≠ 0 →
      ByteKept destPid va s (ipcCopyLoop msgBuf destPid sourcePid k s dest src length) := by
  induction k with
  | zero => exact fun _ _ _ _ _ => ⟨rfl, rfl⟩
  | succ k ih =>
    intro s dest src length h hlt hhi hsrc he
    by_cases hlen : length = 0
    · rw [hlen, ipcCopyLoop_of_zero]
      exact ⟨rfl, rfl⟩
    obtain ⟨hle, hle'⟩ := roundLen_zero_le length
    have h32 : dest + length < 2 ^ 32 := hhi.trans_lt (by decide)
    have h4 : roundLen length 0 ≤ 4096 := hle'.trans (by decide)
    have hu : UserSlot destPid (va / (4096 * 1024)) := userSlot_of_va hd hva (by omega)
    have hround := isolated_round hbuf hd hs h (by omega : dest < 2 ^ 32) hsrc hle'
    rw [ipcCopyLoop_succ k s dest src hlen]
    have hin : ByteKept destPid va s
        (s.ptCopy .copyin sourcePid src msgBuf (roundLen length 0)).2.1 := by
      by_cases hrej : copyRejected src msgBuf (roundLen length 0)
      · rw [ptCopy_of_rejected _ _ _ hrej]
        exact ⟨rfl, rfl⟩
      · rw [ptCopy_of_accepted _ _ _ hrej]
        exact Isolated.copyin_byte hs hu _ h (roundOk_of_accepted h4 hsrc hrej) (hbuf.take hle') he
    have h1 : (s.ptCopy .copyin sourcePid src msgBuf (roundLen length 0)).2.1.Isolated K :=
      h.ptCopy hs hsrc h4 (hbuf.take hle')
    have hout : ByteKept destPid va (s.ptCopy .copyin sourcePid src msgBuf (roundLen length 0)).2.1
        ((s.ptCopy .copyin sourcePid src msgBuf (roundLen length 0)).2.1.ptCopy .copyout destPid
          dest msgBuf (roundLen length 0)).2.1 := by
      by_cases hrej : copyRejected dest msgBuf (roundLen length 0)
      · rw [ptCopy_of_rejected _ _ _ hrej]
        exact ⟨rfl, rfl⟩
      · rw [ptCopy_of_accepted _ _ _ hrej]
        exact Isolated.copyout_byte hd hu _ h1 (by omega) (by omega) h4 (.inl hlt)
          (hbuf.take hle') (by rw [hin.1]; exact he)
    have hstep := hin.trans hout
    rw [Nat.mod_eq_of_lt (by omega : dest + roundLen length 0 < 2 ^ 32)]
    exact hstep.trans (ih hround (by omega) (by omega) (Nat.mod_lt _ (by norm_num))
      (by rw [hstep.1]; exact he))

/-- **A first round that only copies out** leaves the first byte of `msg_buf` at the
receiver's address. -/
theorem ipcCopyLoop_first (h : s.Isolated K) (hlen : length ≠ 0)
    (hlo : vmUserLo ≤ dest) (hhi : dest + length ≤ vmUserHi) (hsrc : src < 2 ^ 32)
    (hin : copyRejected src msgBuf (roundLen length 0))
    (hok : (s.walk destPid dest).2.2 ≠ some magicNumber) :
    (ipcCopyLoop msgBuf destPid sourcePid length s dest src length).userByte destPid dest
      = some (s.mem msgBuf) := by
  obtain ⟨hle, hle'⟩ := roundLen_zero_le length
  have hne := roundLen_zero_ne hlen
  have h4 : roundLen length 0 ≤ 4096 := hle'.trans (by decide)
  have h32 : dest + length < 2 ^ 32 := hhi.trans_lt (by decide)
  have hu : UserSlot destPid (dest / (4096 * 1024)) := userSlot_of_va hd hlo (by omega)
  have hout : ¬ copyRejected dest msgBuf (roundLen length 0) := by
    have hb := hbuf.buffer.1
    unfold copyRejected
    unfold msgBufSize at hb hle'
    unfold vmUserLo at hb hlo ⊢
    unfold vmUserHi at hhi ⊢
    omega
  have hround := isolated_round hbuf hd hs h (by omega : dest < 2 ^ 32) hsrc hle'
  obtain ⟨k, rfl⟩ : ∃ k, length = k + 1 := ⟨length - 1, by omega⟩
  rw [ipcCopyLoop_succ k s dest src hlen]
  rw [ptCopy_of_rejected s _ _ hin, ptCopy_of_accepted s _ _ hout] at hround ⊢
  obtain ⟨n, hn⟩ : ∃ n, roundLen (k + 1) 0 = n + 1 := ⟨roundLen (k + 1) 0 - 1, by omega⟩
  have hfirst := h.copyout_first hd hlo (by omega) h4 hne (hbuf.take hle') hok n
  rw [← hn] at hfirst
  obtain ⟨he, hbyte⟩ := hfirst
  rw [Nat.mod_eq_of_lt (by omega : dest + roundLen (k + 1) 0 < 2 ^ 32)]
  set s1 := (Vm.copyLoop .copyout destPid (roundLen (k + 1) 0) s dest msgBuf
    (roundLen (k + 1) 0) 0).2.1
  have hkept : ByteKept destPid dest s1 (ipcCopyLoop msgBuf destPid sourcePid k s1
      (dest + roundLen (k + 1) 0) ((src + roundLen (k + 1) 0) % 2 ^ 32)
      (k + 1 - roundLen (k + 1) 0)) :=
    ipcCopyLoop_byte hbuf hd hs hlo k hround (by omega) (by omega) (Nat.mod_lt _ (by norm_num)) he
  have hodd : s1.getPtblEntryByVa destPid dest % 2 = 1 := by
    by_contra heven
    exact he (hround.entry_eq_zero hu (by omega))
  unfold Vm.userByte
  rw [hkept.1, if_pos ⟨⟨hlo, by omega⟩, hodd⟩]
  have hpa : ∀ t : Vm, t.getPtblEntryByVa destPid dest = s1.getPtblEntryByVa destPid dest →
      t.userPa destPid dest = s1.userPa destPid dest := by
    intro t ht
    rw [Vm.userPa, Vm.userPa, ht]
  rw [hpa _ hkept.1, hkept.2, hbyte]

/-! ### `ipc_copy` -/

theorem isolated_ipcCopyLoop (k : ℕ) : ∀ {s : Vm} {dest src length : ℕ}, s.Isolated K →
    dest < 2 ^ 32 → src < 2 ^ 32 →
    (ipcCopyLoop msgBuf destPid sourcePid k s dest src length).Isolated K := by
  induction k with
  | zero => exact fun h _ _ => h
  | succ k ih =>
    intro s dest src length h hdest hsrc
    by_cases hlen : length = 0
    · rw [hlen, ipcCopyLoop_of_zero]
      exact h
    · rw [ipcCopyLoop_succ k s dest src hlen]
      exact ih (isolated_round hbuf hd hs h hdest hsrc (roundLen_zero_le length).2)
        (Nat.mod_lt _ (by norm_num)) (Nat.mod_lt _ (by norm_num))

theorem ipcCopy_userByte (h : s.Isolated K) (hsame : SameOff msgBuf (msgBuf + msgBufSize) s s')
    (hdest : dest < 2 ^ 32) (hsrc : src < 2 ^ 32) (hfilled : Filled msgBuf dest src length) :
    (ipcCopy msgBuf s' destPid dest sourcePid src length).userByte destPid
      = (ipcCopy msgBuf s destPid dest sourcePid src length).userByte destPid := by
  unfold ipcCopy
  by_cases hlen : length < 2 ^ 31
  · rw [if_pos hlen, if_pos hlen]
    exact userByte_sameOff hbuf hd (isolated_ipcCopyLoop hbuf hd hs length h hdest hsrc)
      (ipcCopyLoop_sameOff hbuf hd hs length h hsame hdest hsrc (hfilled hlen))
  · rw [if_neg hlen, if_neg hlen]
    exact userByte_sameOff hbuf hd h hsame

omit hbuf hd hs in
/-- In the user range, where every round is copied out, it is the first round that
has to be copied in. -/
theorem filled_of_first (hsrc : src < 2 ^ 32)
    (h : length < 2 ^ 31 → length ≠ 0 → ¬ copyRejected src msgBuf (roundLen length 0)) :
    Filled msgBuf dest src length := by
  intro hlen k hk _
  refine ⟨0, Nat.zero_le k, ?_⟩
  rw [Nat.mul_zero, Nat.add_zero, Nat.mod_eq_of_lt hsrc]
  exact h hlen (by omega)

end TwoRuns

/-- Other contents of a kernel buffer do not matter for isolation. -/
theorem Vm.Isolated.overlay {lo hi : ℕ} (h : s.Isolated K) (hbuf : K.Buffer lo (hi - lo))
    (hle : lo ≤ hi) (m : Mem) : (Vm.overlay lo hi m s).Isolated K := by
  obtain ⟨hb, hb'⟩ := hbuf
  refine h.of_mem (fun p d hu hd x hx => if_neg fun hin => ?_) fun x hx hx' => if_neg fun hin => ?_
  · have hrange := (h.table_range hu hd).1
    unfold userLoPi at hrange
    unfold vmUserLo at hb
    omega
  · omega

/-! ### The system call -/

namespace Sync

variable {σ : Sync} {q : List ℕ} {p sendPid userRecvAddr recvLength : ℕ}

/-- The kernel state with other contents of `msg_buf`. -/
def withBuffer (msgBuf : ℕ) (m : Mem) (σ : Sync) : Sync :=
  { σ with vm := overlay msgBuf (msgBuf + msgBufSize) m σ.vm }

/-- What the receiver's user memory holds after `sys_sync_recv`. -/
def seen (msgBuf : ℕ) (σ : Sync) (p sendPid userRecvAddr recvLength : ℕ) :
    Option (ℕ → Option UInt8) :=
  (sysSyncRecv numIds msgBuf σ p sendPid userRecvAddr recvLength).map fun τ => τ.vm.userByte p

/-- The earlier contents of `msg_buf` make no difference to the receiver. -/
def BufferUnseen (msgBuf : ℕ) (σ : Sync) (p sendPid userRecvAddr recvLength : ℕ) : Prop :=
  ∀ m, seen msgBuf (σ.withBuffer msgBuf m) p sendPid userRecvAddr recvLength
    = seen msgBuf σ p sendPid userRecvAddr recvLength

/-- The length `sys_sync_recv` copies. -/
def copyLength (σ : Sync) (sendPid recvLength : ℕ) : ℕ :=
  if (σ.ipc.msgBlock sendPid).length < recvLength then (σ.ipc.msgBlock sendPid).length
  else recvLength

/-- The receive finds the message and the rounds are filled. -/
def RecvFilled (msgBuf : ℕ) (σ : Sync) (sendPid userRecvAddr recvLength : ℕ) : Prop :=
  Filled msgBuf userRecvAddr (σ.ipc.msgBlock sendPid).bufferAddr (σ.copyLength sendPid recvLength)

theorem Inv.withBuffer (h : Inv numIds σ q) (m : Mem) : Inv numIds (σ.withBuffer msgBuf m) q :=
  { h with }

theorem Inv.seen_blocked (h : Inv numIds σ q)
    (hno : ¬ (sendPid ∈ q ∧ (σ.ipc.msgBlock sendPid).recvPid = p)) :
    seen msgBuf σ p sendPid userRecvAddr recvLength = some (σ.vm.userByte p) := by
  have hsleep : (if sendPid ∈ q then sendPid else numIds) = numIds ∨
      (σ.ipc.msgBlock sendPid).recvPid ≠ p := by
    by_cases hq : sendPid ∈ q
    · exact .inr fun hto => hno ⟨hq, hto⟩
    · exact .inl (if_neg hq)
  unfold seen Sync.sysSyncRecv
  rw [h.search (by decide), Option.map_some, if_pos hsleep]
  rfl

theorem Inv.seen_received (h : Inv numIds σ q) (hq : sendPid ∈ q)
    (hto : (σ.ipc.msgBlock sendPid).recvPid = p) :
    seen msgBuf σ p sendPid userRecvAddr recvLength
      = some ((ipcCopy msgBuf σ.vm p userRecvAddr sendPid (σ.ipc.msgBlock sendPid).bufferAddr
          (σ.copyLength sendPid recvLength)).userByte p) := by
  have hne : sendPid ≠ numIds := fun he => by
    have := (h.ids _ hq).2
    omega
  unfold seen Sync.sysSyncRecv
  rw [h.search (by decide), Option.map_some, if_pos hq, if_neg (by simp [hne, hto])]
  rfl

/-- **A first round that is not copied in shows.**  Another first byte of `msg_buf`
would be seen at the receiver's address. -/
theorem Inv.buffer_seen (hbuf : K.CopyBuffer msgBuf msgBufSize) (hinv : Inv numIds σ q)
    (hiso : σ.vm.Isolated K) (hp : UserPid p)
    (hsrc : (σ.ipc.msgBlock sendPid).bufferAddr < 2 ^ 32) (hq : sendPid ∈ q)
    (hto : (σ.ipc.msgBlock sendPid).recvPid = p) (hlo : vmUserLo ≤ userRecvAddr)
    (hhi : userRecvAddr + σ.copyLength sendPid recvLength ≤ vmUserHi)
    (hok : (σ.vm.walk p userRecvAddr).2.2 ≠ some magicNumber)
    (hlen : σ.copyLength sendPid recvLength < 2 ^ 31) (hne : σ.copyLength sendPid recvLength ≠ 0)
    (hin : copyRejected (σ.ipc.msgBlock sendPid).bufferAddr msgBuf
      (roundLen (σ.copyLength sendPid recvLength) 0)) :
    ¬ BufferUnseen msgBuf σ p sendPid userRecvAddr recvLength := by
  intro hsame
  have hdest : userRecvAddr < 2 ^ 32 := by
    unfold vmUserHi at hhi
    omega
  have hbuf' : K.Buffer msgBuf (msgBuf + msgBufSize - msgBuf) := by
    rw [Nat.add_sub_cancel_left]
    exact hbuf.buffer
  have hs := hinv.ids _ hq
  obtain ⟨b, hb⟩ : ∃ b, b ≠ σ.vm.mem msgBuf := ⟨σ.vm.mem msgBuf + 1, by simp⟩
  have hbyte := hsame fun _ => b
  rw [hinv.seen_received hq hto, (hinv.withBuffer _).seen_received hq hto] at hbyte
  have hat : (ipcCopy msgBuf (overlay msgBuf (msgBuf + msgBufSize) (fun _ => b) σ.vm) p userRecvAddr
      sendPid (σ.ipc.msgBlock sendPid).bufferAddr (σ.copyLength sendPid recvLength)).userByte p
        userRecvAddr = _ := congrFun (Option.some.inj hbyte) userRecvAddr
  have hwalk := hiso.overlay_walk (m := fun _ => b) hp hdest hbuf' (Nat.le_add_right _ _)
  have hiso' := hiso.overlay hbuf' (Nat.le_add_right _ _) fun _ => b
  have hfirst := ipcCopyLoop_first hbuf hp hs hiso hne hlo hhi hsrc hin hok
  have hfirst' := ipcCopyLoop_first hbuf hp hs hiso' hne hlo hhi hsrc hin (by rw [hwalk]; exact hok)
  have hnew : (overlay msgBuf (msgBuf + msgBufSize) (fun _ => b) σ.vm).mem msgBuf = b :=
    if_pos ⟨le_refl _, Nat.lt_add_of_pos_right (by decide)⟩
  unfold ipcCopy at hat
  rw [if_pos hlen, if_pos hlen, hfirst, hfirst', hnew] at hat
  exact hb (Option.some.inj hat)

/-- **What a receiver learns of `msg_buf`.**  It learns nothing if the receive goes to
sleep, or if no round of the message copies out before a round has copied in.  If the
receive takes the message, into a buffer in the user range whose first page is present
or can be allocated, that is also necessary. -/
theorem recv_buffer_unseen_iff (K : KernelImage) (hbuf : K.CopyBuffer msgBuf msgBufSize)
    (hinv : Inv numIds σ q) (hiso : σ.vm.Isolated K) (hp : 1 ≤ p) (hp' : p < numIds)
    (hdest : userRecvAddr < 2 ^ 32) (hsrc : (σ.ipc.msgBlock sendPid).bufferAddr < 2 ^ 32) :
    (¬ (sendPid ∈ q ∧ (σ.ipc.msgBlock sendPid).recvPid = p) →
      BufferUnseen msgBuf σ p sendPid userRecvAddr recvLength) ∧
    (RecvFilled msgBuf σ sendPid userRecvAddr recvLength →
      BufferUnseen msgBuf σ p sendPid userRecvAddr recvLength) ∧
    (sendPid ∈ q → (σ.ipc.msgBlock sendPid).recvPid = p →
      vmUserLo ≤ userRecvAddr → userRecvAddr + σ.copyLength sendPid recvLength ≤ vmUserHi →
      (σ.vm.walk p userRecvAddr).2.2 ≠ some magicNumber →
      (BufferUnseen msgBuf σ p sendPid userRecvAddr recvLength ↔
        RecvFilled msgBuf σ sendPid userRecvAddr recvLength)) := by
  have hblocked : ¬ (sendPid ∈ q ∧ (σ.ipc.msgBlock sendPid).recvPid = p) →
      BufferUnseen msgBuf σ p sendPid userRecvAddr recvLength := by
    intro hno m
    rw [hinv.seen_blocked hno, (hinv.withBuffer m).seen_blocked hno]
    exact congrArg some (userByte_sameOff hbuf ⟨hp, hp'⟩ hiso ⟨m, rfl⟩)
  have hfilled : RecvFilled msgBuf σ sendPid userRecvAddr recvLength →
      BufferUnseen msgBuf σ p sendPid userRecvAddr recvLength := by
    intro hf
    by_cases hgo : sendPid ∈ q ∧ (σ.ipc.msgBlock sendPid).recvPid = p
    · intro m
      rw [hinv.seen_received hgo.1 hgo.2, (hinv.withBuffer m).seen_received hgo.1 hgo.2]
      exact congrArg some (ipcCopy_userByte hbuf ⟨hp, hp'⟩ (hinv.ids _ hgo.1) hiso ⟨m, rfl⟩ hdest
        hsrc hf)
    · exact hblocked hgo
  refine ⟨hblocked, hfilled, fun hq hto hlo hhi hok => ⟨fun hsame => ?_, hfilled⟩⟩
  exact filled_of_first hsrc fun hlen hne hin =>
    hinv.buffer_seen hbuf hiso ⟨hp, hp'⟩ hsrc hq hto hlo hhi hok hlen hne hin hsame

/-- Two processes with a quota of 10 pages each. -/
def twoProcesses : Vm := (sampleBoot.exec (.split 0 10)).exec (.split 0 10)

theorem twoProcesses_pmm : twoProcesses.pmm =
    ((samplePmm.containerSplit 0 10).2.containerSplit 0 10).2 := by
  rw [twoProcesses, pmm_split, pmm_split, sampleBoot_pmm]

theorem twoProcesses_pdir {p d : ℕ} (hu : UserSlot p d) : twoProcesses.getPdirEntry p d = 0 := by
  rw [twoProcesses, pdir_split, pdir_split]
  exact sampleBoot_pdir hu

theorem isolated_twoProcesses : twoProcesses.Isolated sampleImage := by
  refine isolated_of_run (isolated_pdirInitKern _ _ _ _)
    ((run_split 10).tail ⟨.split 0 10, ?_, rfl⟩)
  unfold Vm.Allowed
  rw [pmm_split, sampleBoot_pmm]
  exact ⟨by decide, by decide⟩

/-- Right after boot the second process can get its first page. -/
theorem walk_twoProcesses : (twoProcesses.walk 2 0x50000000).2.2 ≠ some magicNumber := by
  refine walk_of_quota (twoProcesses_pdir ⟨by decide, by decide, by decide, by decide⟩) ?_ ?_
  · rw [twoProcesses_pmm]
    decide +kernel
  · rw [twoProcesses_pmm]
    decide +kernel

/-- Process `1` has sent the byte at address `a` to process `2`. -/
theorem exists_sent (vm : Vm) (msgBuf a : ℕ) :
    ∃ σ, ReflTransGen (Step numIds msgBuf) (init numIds vm) σ ∧ Inv numIds σ [1] ∧
      σ.vm = vm ∧ (σ.ipc.msgBlock 1).recvPid = 2 ∧ (σ.ipc.msgBlock 1).bufferAddr = a ∧
      (σ.ipc.msgBlock 1).length = 1 := by
  have hsend : sysSyncSend numIds (init numIds vm) 1 2 a 1 = some _ := rfl
  exact ⟨_, .single (.send (le_refl 1) (by decide) rfl hsend),
    (inv_init vm).sysSyncSend (by decide) (le_refl 1) (by decide) rfl hsend, rfl, rfl, rfl, rfl⟩

theorem copyBuffer_sample : sampleImage.CopyBuffer 0x300000 msgBufSize :=
  ⟨⟨by decide, .inl (by decide)⟩, by decide, by decide⟩

/-- A message in the sender's memory. -/
theorem recv_buffer_unseen_user :
    ∃ σ, ReflTransGen (Step numIds 0x300000) (init numIds twoProcesses) σ ∧
      (σ.ipc.msgBlock 1).bufferAddr = 0x40000000 ∧ BufferUnseen 0x300000 σ 2 1 0x50000000 1 := by
  obtain ⟨σ, hrun, hinv, hvm, hto, haddr, hlen⟩ := exists_sent twoProcesses 0x300000 0x40000000
  have hcopy : σ.copyLength 1 1 = 1 := by
    unfold copyLength
    rw [hlen]
    rfl
  refine ⟨σ, hrun, haddr, ?_⟩
  refine (((recv_buffer_unseen_iff sampleImage copyBuffer_sample hinv
    (hvm ▸ isolated_twoProcesses) (by decide) (by decide) (by decide)
    (by rw [haddr]; decide)).2.2 (List.mem_singleton.mpr rfl) hto (by decide)
    (by rw [hcopy]; decide) (hvm ▸ walk_twoProcesses))).mpr ?_
  unfold RecvFilled
  rw [haddr, hcopy]
  exact filled_of_first (by decide) fun _ _ => by decide

/-- A message at address `0`, which is not in the user range. -/
theorem recv_shows_buffer :
    ∃ σ, ReflTransGen (Step numIds 0x300000) (init numIds twoProcesses) σ ∧
      (σ.ipc.msgBlock 1).bufferAddr = 0 ∧ ¬ BufferUnseen 0x300000 σ 2 1 0x50000000 1 := by
  obtain ⟨σ, hrun, hinv, hvm, hto, haddr, hlen⟩ := exists_sent twoProcesses 0x300000 0
  have hcopy : σ.copyLength 1 1 = 1 := by
    unfold copyLength
    rw [hlen]
    rfl
  refine ⟨σ, hrun, haddr, hinv.buffer_seen copyBuffer_sample (hvm ▸ isolated_twoProcesses)
    ⟨by decide, by decide⟩ (by rw [haddr]; decide) (List.mem_singleton.mpr rfl) hto (by decide)
    (by rw [hcopy]; decide) (hvm ▸ walk_twoProcesses) (by rw [hcopy]; decide)
    (by rw [hcopy]; decide) ?_⟩
  rw [haddr, hcopy]
  decide

end Sync

end Mcertikos
