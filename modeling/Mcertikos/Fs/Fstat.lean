/-
`sys_fstat` and the memory of its caller.

The call first copies the caller's structure into `kern_st` with `pt_copyin`, then
`file_stat` fills `kern_st`, and the call returns: nothing is copied back.

* `acts_fileStat` — what `file_stat` finds are the attributes of the inode;
* `sysFstatMem` — the call on the file system and on memory, of which `sysFstat` is the
  first half (`sysFstatMem_fst`);
* `Isolated.userByte_fstatMem`, `Isolated.userByte_ptCopyin` — no byte of user memory changes;
* `sysFstat_delivers_iff` — so a call that returns `0` leaves the attributes at the
  address it was given only if they have been there before.
-/
import Mcertikos.Fs.FileIo
import Mcertikos.Vmm.UserMem

namespace Mcertikos

open Memory

/-! ### The call -/

namespace Fs

/-- `inode_stat` into the structure at address `p`. -/
def FileStat.store (st : FileStat) (m : Mem) (p : ℕ) : Mem :=
  let m := write32 m (p + 4) st.dev
  let m := write32 m (p + 8) st.ino
  let m := write16 m p st.type
  let m := write16 m (p + 12) st.nlink
  write32 m (p + 16) st.size

/-- `sys_fstat`, with its effect on memory; `kernSt` is the address of `kern_st`. -/
def sysFstatMem (v : Vm) (kernSt pid fd userStp : ℕ) : FsM (Ret × Vm) := do
  if nofile ≤ fd ∨ userStp < vmUserlo ∨ vmUserhi < (userStp + 20) % 2 ^ 32 then
    pure ({ errno := .badf, retval1 := some (-1) }, v)
  else do
    let fp ← readMem (·.openfiles pid fd)
    match fp with
    | none => pure ({ errno := .badf, retval1 := some (-1) }, v)
    | some f => do
      let v₁ := (v.ptCopyin pid userStp kernSt 20).2.1
      let st ← fileStat f
      match st with
      | some st =>
        pure ({ errno := .succ, retval1 := some 0 }, { v₁ with mem := st.store v₁.mem kernSt })
      | none => pure ({ errno := .badf, retval1 := some (-1) }, v₁)

/-- The file system's half of the call is `sysFstat`. -/
theorem sysFstatMem_fst (v : Vm) (kernSt pid fd userStp : ℕ) :
    (sysFstatMem v kernSt pid fd userStp >>= fun r => pure r.1) = sysFstat pid fd userStp := by
  unfold sysFstatMem sysFstat
  by_cases hrej : nofile ≤ fd ∨ userStp < vmUserlo ∨ vmUserhi < (userStp + 20) % 2 ^ 32
  · rw [if_pos hrej, if_pos hrej]
    rfl
  · rw [if_neg hrej, if_neg hrej, Prog.bind_assoc]
    congr 1
    funext fp
    cases fp with
    | none => rfl
    | some f =>
      dsimp only
      rw [Prog.bind_assoc]
      congr 1
      funext st
      cases st <;> rfl

/-! ### What `file_stat` finds -/

/-- The attributes of inode `x`. -/
def Afs.stat (a : Afs) (x : ℕ) : FileStat :=
  ⟨(a.node x).type, rootdev, x, (a.node x).nlink, (a.node x).data.length⟩

section Stat

variable {G : Geom} {ok : Stop → Prop} {a : Afs} {f ip pid fd userStp kernSt : ℕ} {s : Slot} {v : Vm}

/-- **`file_stat`** -/
theorem acts_fileStat (h : a.FileAt f ip s) :
    Acts G ok a (fileStat f) fun r a' => r = some (a.stat s.inum) ∧ a' = a := by
  refine (acts_getFile f).bind ?_
  rintro x a' ⟨rfl, rfl⟩
  rw [if_pos h.type]
  refine (acts_lockFile h).bind ?_
  rintro ip' a1 ⟨rfl, rfl⟩
  refine (acts_getInode h.slot_lock).bind ?_
  rintro i a2 ⟨rfl, hdev, hinum, hcopy⟩
  have hcopy : (a'.node s.inum).Copy i.d := hcopy rfl
  refine (acts_inodeUnlock h.slot h.lock).bind ?_
  rintro - a3 rfl
  refine acts_pure ⟨?_, rfl⟩
  unfold Afs.stat
  rw [hcopy.type, hdev, hinum, hcopy.nlink, hcopy.size]

/-- The memory after the call. -/
def fstatMem (v : Vm) (kernSt pid userStp : ℕ) (st : FileStat) : Vm :=
  { (v.ptCopyin pid userStp kernSt 20).2.1 with
    mem := st.store (v.ptCopyin pid userStp kernSt 20).2.1.mem kernSt }

theorem acts_sysFstatMem (hfd : fd < nofile) (hlo : vmUserLo ≤ userStp) (hhi : userStp + 20 ≤ vmUserHi)
    (hopen : a.openfiles pid fd = some f) (h : a.FileAt f ip s) :
    Acts G ok a (sysFstatMem v kernSt pid fd userStp) fun r a' =>
      r = ({ errno := .succ, retval1 := some 0 }, fstatMem v kernSt pid userStp (a.stat s.inum)) ∧
        a' = a := by
  have hacc : ¬ (nofile ≤ fd ∨ userStp < vmUserlo ∨ vmUserhi < (userStp + 20) % 2 ^ 32) := by
    unfold vmUserlo vmUserhi
    unfold vmUserLo at hlo
    unfold vmUserHi at hhi
    omega
  unfold sysFstatMem
  rw [if_neg hacc]
  refine (acts_readMem fun k hk => congrFun (congrFun hk.openfiles pid) fd).bind ?_
  rintro fp a' ⟨rfl, rfl⟩
  rw [hopen]
  refine (acts_fileStat h).bind ?_
  rintro st a'' ⟨rfl, rfl⟩
  exact acts_pure ⟨rfl, rfl⟩

end Stat

end Fs

/-! ### What the caller sees -/

namespace Vm

variable {K : KernelImage} {s : Vm} {pid userStp kernSt : ℕ} {st : Fs.FileStat}

/-- The bytes that `pid` sees from `va` on. -/
def userMem (s : Vm) (pid va : ℕ) : Mem := fun i => (s.userByte pid (va + i)).getD 0

/-- The structure at `va` in the memory of `pid` holds `st`. -/
structure HoldsStat (s : Vm) (pid va : ℕ) (st : Fs.FileStat) : Prop where
  present : ∀ i < 20, s.userByte pid (va + i) ≠ none
  type : read16 (s.userMem pid va) 0 = st.type
  dev : read32 (s.userMem pid va) 4 = st.dev
  ino : read32 (s.userMem pid va) 8 = st.ino
  nlink : read16 (s.userMem pid va) 12 = st.nlink
  size : read32 (s.userMem pid va) 16 = st.size

theorem HoldsStat.congr {s s' : Vm} {va : ℕ} (h : s.HoldsStat pid va st)
    (hb : ∀ i < 20, s'.userByte pid (va + i) = s.userByte pid (va + i)) : s'.HoldsStat pid va st := by
  have hmem : ∀ i < 20, s'.userMem pid va i = s.userMem pid va i := fun i hi => by
    unfold userMem
    rw [hb i hi]
  refine ⟨fun i hi => by rw [hb i hi]; exact h.present i hi, ?_, ?_, ?_, ?_, ?_⟩
  · exact (read16_congr fun x _ hx => hmem x (by omega)).trans h.type
  · exact (read32_congr fun x _ hx => hmem x (by omega)).trans h.dev
  · exact (read32_congr fun x _ hx => hmem x (by omega)).trans h.ino
  · exact (read16_congr fun x _ hx => hmem x (by omega)).trans h.nlink
  · exact (read32_congr fun x _ hx => hmem x (by omega)).trans h.size

theorem store_of_outside {m : Mem} {p x : ℕ} (hx : x < p ∨ p + 20 ≤ x) : st.store m p x = m x := by
  unfold Fs.FileStat.store
  rw [write32_of_outside (by omega), write16_of_outside (by omega), write16_of_outside (by omega),
    write32_of_outside (by omega), write32_of_outside (by omega)]

/-- A store below the user range is one that no process sees. -/
theorem Isolated.userByte_of_low (h : s.Isolated K) {m : Mem}
    (hm : ∀ x, vmUserLo ≤ x → m x = s.mem x) {q va : ℕ} (hq : UserPid q) :
    userByte { s with mem := m } q va = s.userByte q va := by
  unfold userByte
  by_cases hr : vmUserLo ≤ va ∧ va < vmUserHi
  swap
  · rw [if_neg fun hc => hr hc.1, if_neg fun hc => hr hc.1]
  have hu := userSlot_of_va hq hr.1 hr.2
  have hentry : getPtblEntryByVa { s with mem := m } q va = s.getPtblEntryByVa q va := by
    refine h.entry_of_norm (fun x hx => hm x ?_) hu
    have hlo := (h.norm_range _ hx).1
    unfold userLoPi at hlo
    unfold vmUserLo
    omega
  rw [hentry]
  by_cases hodd : s.getPtblEntryByVa q va % 2 = 1
  · have hpa : userPa { s with mem := m } q va = s.userPa q va := by rw [userPa, userPa, hentry]
    have hframe := (h.le_userPa hu (by omega)).1
    rw [if_pos ⟨hr, hodd⟩, if_pos ⟨hr, hodd⟩, hpa]
    refine congrArg some (hm _ ?_)
    unfold userPa vmUserLo
    omega
  · rw [if_neg fun hc => hodd hc.2, if_neg fun hc => hodd hc.2]

/-- What the call stores no process sees. -/
theorem Isolated.userByte_fstatMem (h : s.Isolated K) (hp : UserPid pid)
    (huva : userStp < 2 ^ 32) (hbuf : K.CopyBuffer kernSt 20) {q va : ℕ} (hq : UserPid q) :
    (Fs.fstatMem s kernSt pid userStp st).userByte q va
      = (s.ptCopyin pid userStp kernSt 20).2.1.userByte q va := by
  have hiso : (s.ptCopyin pid userStp kernSt 20).2.1.Isolated K :=
    h.ptCopy hp huva (by norm_num) hbuf
  have hlow := hbuf.buffer.1
  exact hiso.userByte_of_low (fun x hx => store_of_outside (.inr (hlow.trans hx))) hq

/-- The copy into the kernel keeps what every process sees. -/
theorem Isolated.userByte_ptCopyin (h : s.Isolated K) (hp : UserPid pid)
    (hlo : vmUserLo ≤ userStp) (hhi : userStp + 20 ≤ vmUserHi) (hbuf : K.CopyBuffer kernSt 20)
    {q va : ℕ} (hq : UserPid q) {b : UInt8} (hb : s.userByte q va = some b) :
    (s.ptCopyin pid userStp kernSt 20).2.1.userByte q va = some b := by
  obtain ⟨he, hva, hva'⟩ := entry_of_userByte hb
  have hlow := hbuf.buffer.1
  have hacc : ¬ copyRejected userStp kernSt 20 := not_copyRejected hlo hhi (by
    unfold vmUserLo at hlow
    unfold vmUserHi
    omega)
  have huva : userStp < 2 ^ 32 := by
    unfold vmUserHi at hhi
    omega
  unfold Vm.ptCopyin Vm.ptCopy
  rw [if_neg hacc]
  have hkept : ByteKept q va s (Vm.copyLoop .copyin pid 20 s userStp kernSt 20 0).2.1 :=
    Isolated.copyin_byte hp (userSlot_of_va hq hva hva') 20 h
      (roundOk_of_accepted (by norm_num) huva hacc) hbuf he
  rw [hkept.userByte]
  exact hb

end Vm

/-! ### What the call delivers -/

namespace Fs

open Mkfs

section Delivers

variable {K : KernelImage} {G : Geom} {v : Vm} {s : FsSys} {a : Afs} {f ip pid fd userStp kernSt : ℕ}
  {sl : Slot}

/-- The call on an open file returns `0`, and the memory is `fstatMem`. -/
theorem sysFstatMem_returns (v : Vm) (kernSt : ℕ) (hs : Stands G never s a) (hfd : fd < nofile)
    (hlo : vmUserLo ≤ userStp) (hhi : userStp + 20 ≤ vmUserHi) (hopen : a.openfiles pid fd = some f)
    (hf : a.FileAt f ip sl) :
    ∃ s', exec (sysFstatMem v kernSt pid fd userStp) s =
        .ok ({ errno := .succ, retval1 := some 0 }, fstatMem v kernSt pid userStp (a.stat sl.inum)) s' ∧
      Stands G never s' a := by
  obtain ⟨r, s', a', hrun, hs', hr, ha⟩ := (acts_sysFstatMem hfd hlo hhi hopen hf).total hs
  exact ⟨s', hr ▸ hrun, ha ▸ hs'⟩

/-- **What `sys_fstat` delivers**: the call returns `0`, every byte that a process has seen it still
sees, and the structure at `userStp` holds the attributes of the inode only if the pages there,
which `pt_copyin` maps if they are missing, have held them before. -/
theorem sysFstat_delivers_iff (hv : v.Isolated K) (hbuf : K.CopyBuffer kernSt 20) (hp : 1 ≤ pid)
    (hp' : pid < Mcertikos.numIds) (hs : Stands G never s a) (hfd : fd < nofile)
    (hopen : a.openfiles pid fd = some f) (hf : a.FileAt f ip sl) (hlo : vmUserLo ≤ userStp)
    (hhi : userStp + 20 ≤ vmUserHi) :
    ∃ v' s', exec (sysFstatMem v kernSt pid fd userStp) s =
        .ok ({ errno := .succ, retval1 := some 0 }, v') s' ∧ Stands G never s' a ∧
      (v'.HoldsStat pid userStp (a.stat sl.inum) ↔
        (v.ptCopyin pid userStp kernSt 20).2.1.HoldsStat pid userStp (a.stat sl.inum)) ∧
      ((∀ i < 20, v.userByte pid (userStp + i) ≠ none) →
        (v'.HoldsStat pid userStp (a.stat sl.inum) ↔ v.HoldsStat pid userStp (a.stat sl.inum))) ∧
      ∀ q va b, 1 ≤ q → q < Mcertikos.numIds → v.userByte q va = some b →
        v'.userByte q va = some b := by
  obtain ⟨s', hrun, hs'⟩ := sysFstatMem_returns v kernSt hs hfd hlo hhi hopen hf
  have huva : userStp < 2 ^ 32 := by
    unfold vmUserHi at hhi
    omega
  have hpid : UserPid pid := ⟨hp, hp'⟩
  have hstore : ∀ {q va}, UserPid q →
      (fstatMem v kernSt pid userStp (a.stat sl.inum)).userByte q va =
        (v.ptCopyin pid userStp kernSt 20).2.1.userByte q va :=
    fun hq => hv.userByte_fstatMem hpid huva hbuf hq
  have hkept : ∀ q va b, 1 ≤ q → q < Mcertikos.numIds → v.userByte q va = some b →
      (fstatMem v kernSt pid userStp (a.stat sl.inum)).userByte q va = some b :=
    fun q va b hq hq' hb =>
      (hstore ⟨hq, hq'⟩).trans (hv.userByte_ptCopyin hpid hlo hhi hbuf ⟨hq, hq'⟩ hb)
  refine ⟨_, s', hrun, hs', ?_, fun hpresent => ?_, hkept⟩
  · exact ⟨fun h => h.congr fun i _ => (hstore hpid).symm, fun h => h.congr fun i _ => hstore hpid⟩
  · have hsame : ∀ i < 20, (fstatMem v kernSt pid userStp (a.stat sl.inum)).userByte pid (userStp + i) =
        v.userByte pid (userStp + i) := fun i hi => by
      obtain ⟨b, hb⟩ := Option.ne_none_iff_exists'.mp (hpresent i hi)
      rw [hb]
      exact hkept _ _ _ hp hp' hb
    exact ⟨fun h => h.congr fun i hi => (hsame i hi).symm, fun h => h.congr hsame⟩

end Delivers

/-! ### A file of an image -/

/-- Process 1 with `n` zero bytes at the start of its user range. -/
def zeroed (t : Vm) (n : ℕ) : Vm := (t.ptMemset 1 0x40000000 0 n).2.1

theorem stores_zeroed {K : KernelImage} {t : Vm} {n : ℕ} (h : t.Isolated K) (hn : n ≤ 4096)
    (hok : (t.walk 1 0x40000000).2.2 ≠ some magicNumber) :
    Vm.Stores K 1 0x40000000 n (fun _ => 0) t (zeroed t n) := by
  have hhi : 0x40000000 + n ≤ vmUserHi := by
    unfold vmUserHi
    omega
  unfold zeroed
  exact h.stores_memset_page ⟨le_refl 1, by decide⟩ (by decide) hhi (by omega) hok

def zeroedProcess : Vm := zeroed Vm.tenPageProcess 20

theorem stores_zeroedProcess :
    Vm.Stores Vm.sampleImage 1 0x40000000 20 (fun _ => 0) Vm.tenPageProcess zeroedProcess :=
  stores_zeroed Vm.isolated_tenPageProcess (by norm_num) Vm.walk_tenPageProcess

theorem copyBuffer_sample : Vm.sampleImage.CopyBuffer 0x300000 20 :=
  ⟨⟨by decide, .inl (by decide)⟩, by decide, by decide⟩

/-- The file of `oneInput` is open in entry 0 of the file table, as descriptor 0 of process 1. -/
theorem openFd_boot : ∃ m ip s0 s a sl, mkfs oneInput = some m ∧
    exec (openAt 2 0) (FsSys.boot m.disk fun _ => 0) = .ok ip s0 ∧
    exec (modifyMem fun k => k.setOpenfiles 1 0 (some 0)) s0 = .ok ⟨⟩ s ∧ Stands geom never s a ∧
    a.openfiles 1 0 = some 0 ∧ a.FileAt 0 ip sl ∧ a.stat sl.inum = ⟨tFile, rootdev, 2, 1, 1⟩ := by
  obtain ⟨m, ip, s0, a, sl, hm, hrun, hs, hf, hx, -, -, hnode, -⟩ :=
    openAt_boot fit_oneInput (by decide) (x := 2) (by decide) 0
  have hacts : Acts geom never a (modifyMem fun k => k.setOpenfiles 1 0 (some 0)) fun _ a' =>
      a' = a.setOpenfiles 1 0 (some 0) := acts_modifyMem fun k hk => ⟨rfl, by
    unfold Afs.withMem Kmem.setOpenfiles Afs.setOpenfiles
    dsimp only
    rw [hk.file, hk.openfiles, hk.cwd, hk.first, hk.bufLock]⟩
  obtain ⟨⟨⟩, s, a', hrun', hs', rfl⟩ := hacts.total hs
  refine ⟨m, ip, s0, s, _, sl, hm, hrun, hrun', hs', ?_, ⟨hf.type, hf.inode, hf.slot, hf.lock, hf.clean,
    hf.live⟩, ?_⟩
  · unfold Afs.setOpenfiles
    dsimp only
    rw [Function.update_self, Function.update_self]
  · show FileStat.mk (a.node sl.inum).type _ _ (a.node sl.inum).nlink (a.node sl.inum).data.length = _
    rw [hx, hnode]
    rfl

theorem sysFstat_delivers_iff_oneInput : ∃ m ip s₀ s v' s', mkfs oneInput = some m ∧
    exec (openAt 2 0) (FsSys.boot m.disk fun _ => 0) = .ok ip s₀ ∧
    exec (modifyMem fun k => k.setOpenfiles 1 0 (some 0)) s₀ = .ok ⟨⟩ s ∧
    exec (sysFstatMem zeroedProcess 0x300000 1 0 0x40000000) s =
      .ok ({ errno := .succ, retval1 := some 0 }, v') s' := by
  obtain ⟨m, ip, s₀, s, a, sl, hm, hrun, hrun', hs, hopen, hf, -⟩ := openFd_boot
  obtain ⟨v', s', hcall, -⟩ := sysFstat_delivers_iff stores_zeroedProcess.iso copyBuffer_sample
    (le_refl 1) (by decide) hs (by decide) hopen hf (show vmUserLo ≤ 0x40000000 by decide) (by decide)
  exact ⟨m, ip, s₀, s, v', s', hm, hrun, hrun', hcall⟩

/-- `sys_fstat` on the file of `oneInput` returns `0`, and the structure is not filled. -/
theorem sysFstat_delivers_nothing : ∃ m ip s₀ s v' s', mkfs oneInput = some m ∧
    exec (openAt 2 0) (FsSys.boot m.disk fun _ => 0) = .ok ip s₀ ∧
    exec (modifyMem fun k => k.setOpenfiles 1 0 (some 0)) s₀ = .ok ⟨⟩ s ∧
    zeroedProcess.Isolated Vm.sampleImage ∧
    (∀ i < 20, zeroedProcess.userByte 1 (0x40000000 + i) = some 0) ∧
    exec (sysFstatMem zeroedProcess 0x300000 1 0 0x40000000) s =
      .ok ({ errno := .succ, retval1 := some 0 }, v') s' ∧
    (∀ i < 20, v'.userByte 1 (0x40000000 + i) = some 0) ∧
    ¬ v'.HoldsStat 1 0x40000000 ⟨tFile, rootdev, 2, 1, 1⟩ := by
  obtain ⟨m, ip, s₀, s, a, sl, hm, hrun, hrun', hs, hopen, hf, hstat⟩ := openFd_boot
  obtain ⟨s', hcall, -⟩ := sysFstatMem_returns zeroedProcess 0x300000 hs (by decide)
    (show vmUserLo ≤ 0x40000000 by decide) (by decide) hopen hf
  rw [hstat] at hcall
  set v' := fstatMem zeroedProcess 0x300000 1 0x40000000 ⟨tFile, rootdev, 2, 1, 1⟩ with hv'
  have hzero : ∀ i < 20, v'.userByte 1 (0x40000000 + i) = some 0 := by
    intro i hi
    rw [hv', stores_zeroedProcess.iso.userByte_fstatMem ⟨le_refl 1, by decide⟩ (by decide)
      copyBuffer_sample ⟨le_refl 1, by decide⟩]
    exact stores_zeroedProcess.iso.userByte_ptCopyin ⟨le_refl 1, by decide⟩ (by decide) (by decide)
      copyBuffer_sample ⟨le_refl 1, by decide⟩ (stores_zeroedProcess.bytes i hi)
  refine ⟨m, ip, s₀, s, v', s', hm, hrun, hrun', stores_zeroedProcess.iso, stores_zeroedProcess.bytes,
    hcall, hzero, fun h => ?_⟩
  -- the number of the device is not zero
  have hdev := h.dev
  have hread : read32 (v'.userMem 1 0x40000000) 4 = read32 (fun _ => 0) 4 := by
    refine read32_congr fun x _ hx => ?_
    unfold Vm.userMem
    rw [hzero x (by omega)]
    rfl
  rw [hread] at hdev
  exact absurd hdev (by decide)

end Fs

end Mcertikos
