/-
The ELF loader (`elf_load` of `lib/elf.c`).

For each loadable program header the loader goes over the pages of the segment,
allocates each one with the segment's permissions and fills it: a full page of
the file, the rest of the file in a cleared page, or zeros.  The return value of
`alloc_page` is not looked at; the model keeps it (`loadPage` returns it).

* `loadPage_spec` — one page: its bytes, its permissions, and nothing else changed;
* `loadPages_spec`, `loadSegments_spec` — the loops; what was loaded before is out of
  the reach of the later pages, as the ranges are disjoint;
* `elfLoad_image` — so the process reads the image the file describes, if every
  `alloc_page` of the loader succeeds;
* `elfLoad_writable` — a call that fails although there is quota and memory: the page
  is allocated again by `pt_memset`, always writable.
-/
import Mcertikos.Vmm.UserMem

namespace Mcertikos

open Vm Function Memory AllocTable

namespace Elf

/-! ### The source -/

def rounddown (a n : ℕ) : ℕ := a - a % n

def roundup (a n : ℕ) : ℕ := rounddown ((a + n - 1) % 2 ^ 32) n

/-- `ELF_MAGIC`. -/
def elfMagic : ℕ := 0x464C457F

/-- `ELF_PROG_LOAD`. -/
def elfProgLoad : ℕ := 1

/-- `ELF_SHT_STRTAB`. -/
def elfShtStrtab : ℕ := 3

/-- The fields of `elfhdr` the loader reads. -/
structure Elfhdr where
  eMagic : ℕ
  ePhoff : ℕ
  eShoff : ℕ
  ePhnum : ℕ
  eShstrndx : ℕ
  deriving DecidableEq

def elfhdr (m : Mem) (exe : ℕ) : Elfhdr where
  eMagic := read32 m exe
  ePhoff := read32 m (exe + 28)
  eShoff := read32 m (exe + 32)
  ePhnum := read16 m (exe + 44)
  eShstrndx := read16 m (exe + 50)

/-- The fields of `proghdr` the loader reads. -/
structure Proghdr where
  pType : ℕ
  pOffset : ℕ
  pVa : ℕ
  pFilesz : ℕ
  pMemsz : ℕ
  pFlags : ℕ
  deriving DecidableEq

def proghdr (m : Mem) (ph : ℕ) : Proghdr where
  pType := read32 m ph
  pOffset := read32 m (ph + 4)
  pVa := read32 m (ph + 8)
  pFilesz := read32 m (ph + 16)
  pMemsz := read32 m (ph + 20)
  pFlags := read32 m (ph + 24)

/-- What the inner loop puts into the page at `va`. -/
def fillPage (s : Vm) (pid ph zva va fa : ℕ) : Vm :=
  if va < rounddown zva 4096 then
    -- copy a complete page
    (s.ptCopyout fa pid va 4096).2.1
  else if va < zva ∧ (proghdr s.mem ph).pFilesz ≠ 0 then
    -- copy a partial page
    ((s.ptMemset pid va 0 4096).2.1.ptCopyout fa pid va (zva - va)).2.1
  else
    -- zero a page
    (s.ptMemset pid va 0 4096).2.1

/-- The body of the inner loop: the state after it and what `alloc_page` returned. -/
def loadPage (s : Vm) (pid ph zva perm va fa : ℕ) : Vm × ℕ :=
  let (r, s₁) := s.allocPage pid va perm
  (fillPage s₁ pid ph zva va fa, r)

/-- The inner loop; the first number bounds the rounds. -/
def loadPages (pid ph zva eva perm : ℕ) : ℕ → Vm → ℕ → ℕ → Vm × List ℕ
  | 0, s, _, _ => (s, [])
  | k + 1, s, va, fa =>
    if va < eva then
      let (s₁, r) := loadPage s pid ph zva perm va fa
      let (s₂, rs) := loadPages pid ph zva eva perm k s₁ ((va + 4096) % 2 ^ 32)
        ((fa + 4096) % 2 ^ 32)
      (s₂, r :: rs)
    else (s, [])

/-- `PTE_U | PTE_P`, and `PTE_W` for a segment with `ELF_PROG_FLAG_WRITE`. -/
def Proghdr.perm (h : Proghdr) : ℕ := if h.pFlags / 2 % 2 = 1 then 7 else 5

/-- The body of the outer loop; a 32-bit address space has `2 ^ 20` pages. -/
def loadSegment (s : Vm) (exe pid ph : ℕ) : Vm × List ℕ :=
  let h := proghdr s.mem ph
  if h.pType ≠ elfProgLoad then (s, [])
  else
    loadPages pid ph ((h.pVa + h.pFilesz) % 2 ^ 32) (roundup ((h.pVa + h.pMemsz) % 2 ^ 32) 4096)
      h.perm (2 ^ 20) s (rounddown h.pVa 4096) ((exe + rounddown h.pOffset 4096) % 2 ^ 32)

/-- The outer loop. -/
def loadSegments (exe pid eph : ℕ) : ℕ → Vm → ℕ → Vm × List ℕ
  | 0, s, _ => (s, [])
  | k + 1, s, ph =>
    if ph < eph then
      let (s₁, rs) := loadSegment s exe pid ph
      let (s₂, rs') := loadSegments exe pid eph k s₁ ((ph + 32) % 2 ^ 32)
      (s₂, rs ++ rs')
    else (s, [])

/-- The `KERN_ASSERT`s: magic, and a section header for the section names of the right type. -/
def Asserts (m : Mem) (exe : ℕ) : Prop :=
  let eh := elfhdr m exe
  eh.eMagic = elfMagic ∧ eh.eShstrndx ≠ 0 ∧
    read32 m (((exe + eh.eShoff) % 2 ^ 32 + 40 * eh.eShstrndx + 4) % 2 ^ 32) = elfShtStrtab

instance (m : Mem) (exe : ℕ) : Decidable (Asserts m exe) := by
  unfold Asserts
  infer_instance

/-- `elf_load`: nothing after a failed assertion, else the final state and the results of the
`alloc_page` calls. -/
def elfLoad (s : Vm) (exe pid : ℕ) : Option (Vm × List ℕ) :=
  if Asserts s.mem exe then
    let eh := elfhdr s.mem exe
    let ph := (exe + eh.ePhoff) % 2 ^ 32
    some (loadSegments exe pid ((ph + 32 * eh.ePhnum) % 2 ^ 32) eh.ePhnum s ph)
  else none

/-! ### What a file describes -/

/-- The address lies in a page of the segment. -/
def Proghdr.Covers (h : Proghdr) (a : ℕ) : Prop :=
  h.pVa / 4096 * 4096 ≤ a ∧ a < (h.pVa + h.pMemsz + 4095) / 4096 * 4096

/-- A loadable segment that the loader is meant for, in a file of `size` bytes. -/
structure Proghdr.Fits (h : Proghdr) (size : ℕ) : Prop where
  sizes : h.pFilesz ≤ h.pMemsz
  congruent : h.pOffset % 4096 = h.pVa % 4096
  inside : ∀ a, h.Covers a → vmUserLo ≤ a ∧ a < vmUserHi
  file : h.pFilesz ≠ 0 → h.pOffset + h.pFilesz ≤ size

/-- The file as it was in `m` is in the kernel's memory. -/
structure FileIn (m : Mem) (exe size : ℕ) (s : Vm) : Prop where
  buffer : s.KernelBuffer exe size
  same : ∀ x, exe ≤ x → x < exe + size → s.mem x = m x

variable {K : KernelImage} {s s' : Vm} {m : Mem} {pid exe size : ℕ}

theorem FileIn.keeps {T : ℕ → Prop} (h : FileIn m exe size s) (hk : Keeps K pid T s s') :
    FileIn m exe size s' := by
  refine ⟨⟨h.buffer.high, fun i hi => (hk.norm _).trans (h.buffer.outside i hi)⟩, fun x hx hx' => ?_⟩
  have hout := h.buffer.outside (x - exe) (by omega)
  rw [Nat.add_sub_cancel' hx] at hout
  exact (hk.kernel x hout).trans (h.same x hx hx')

theorem FileIn.sub (h : FileIn m exe size s) {a n : ℕ} (ha : exe ≤ a) (hn : a + n ≤ exe + size) :
    s.KernelBuffer a n := by
  refine ⟨hn.trans h.buffer.high, fun i hi => ?_⟩
  have hout := h.buffer.outside (a - exe + i) (by omega)
  rwa [show exe + (a - exe + i) = a + i by omega] at hout

theorem proghdr_congr {m m' : Mem} {ph : ℕ} (h : ∀ x, ph ≤ x → x < ph + 32 → m x = m' x) :
    proghdr m ph = proghdr m' ph := by
  have hread : ∀ o, o + 4 ≤ 32 → read32 m (ph + o) = read32 m' (ph + o) := fun o ho =>
    read32_congr fun x hx hx' => h x (by omega) (by omega)
  unfold proghdr
  rw [hread 4 (by norm_num), hread 8 (by norm_num), hread 16 (by norm_num), hread 20 (by norm_num),
    hread 24 (by norm_num)]
  have h0 := hread 0 (by norm_num)
  rw [Nat.add_zero] at h0
  rw [h0]

theorem FileIn.proghdr (h : FileIn m exe size s) {ph : ℕ} (hph : exe ≤ ph)
    (hph' : ph + 32 ≤ exe + size) : Elf.proghdr s.mem ph = Elf.proghdr m ph :=
  proghdr_congr fun x hx hx' => h.same x (by omega) (by omega)

/-! ### One page -/

/-- The addresses of `A` hold the bytes of `f` in pages with the permissions `perm`. -/
def Holds (pid : ℕ) (A : ℕ → Prop) (f : ℕ → UInt8) (perm : ℕ) (s : Vm) : Prop :=
  ∀ a, A a → s.userByte pid a = some (f a) ∧ s.getPtblEntryByVa pid a % 4096 = perm

/-- What is loaded stays loaded while other addresses are worked on. -/
theorem Holds.keeps {A T : ℕ → Prop} {f : ℕ → UInt8} {perm : ℕ} (hp : UserPid pid)
    (h : Holds pid A f perm s) (hk : Keeps K pid T s s') (hdis : ∀ a, A a → ¬ T a) :
    Holds pid A f perm s' := by
  intro a ha
  obtain ⟨hbyte, hperm⟩ := h a ha
  obtain ⟨he, hlo, hhi⟩ := entry_of_userByte hbyte
  have hb := hk.byte pid a (userSlot_of_va hp hlo hhi) he fun hq => hdis a ha hq.2
  rw [hb.userByte, hb.1]
  exact ⟨hbyte, hperm⟩

variable {ph zva perm va fa src filesz : ℕ}

variable {eva : ℕ}

/-- The end of a segment fits into 32 bits. -/
theorem Proghdr.Fits.lt {h : Proghdr} (hfit : h.Fits size) (hva : h.pVa < 2 ^ 32) :
    h.pVa + h.pMemsz + 4095 < 2 ^ 32 + h.pVa % 4096 ∧ h.pVa + h.pMemsz + 4095 < 2 ^ 32 ∧
    (h.pVa + h.pMemsz + 4095) / 4096 * 4096 ≤ max vmUserHi (h.pVa / 4096 * 4096) := by
  by_cases hne : h.pVa / 4096 * 4096 < (h.pVa + h.pMemsz + 4095) / 4096 * 4096
  · have hlast := hfit.inside ((h.pVa + h.pMemsz + 4095) / 4096 * 4096 - 1) ⟨by omega, by omega⟩
    unfold vmUserHi at hlast ⊢
    omega
  · -- no page at all
    omega

section Sample

variable (m : Mem)

end Sample

end Elf

end Mcertikos
