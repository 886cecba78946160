/-
Page directories and page tables (`MPTIntro`, `MPTOp`, `MPTComm`, `MPTKern`,
`MPTNew`).

The directories are the static array `PDirPool`; the page tables of the user
range live in frames handed out by the allocator, so they are part of the
physical memory `mem`, as is the static identity table `IDPTbl`, whose address
is fixed by the link of the kernel (`KernelImage`).  The kernel runs on the
identity map, so an address it dereferences is a physical address.

* `pdirInitKern` — the state after boot;
* `mapPage`, `unmapPage`, `allocPage`, `allocPtbl`, `freePtbl` — the operations;
* `getPtblEntryByVa` — the translation of a virtual address.
-/
import Mcertikos.Lib.Memory
import Mcertikos.Pmm.Container

namespace Mcertikos

open Memory AllocTable

/-- `MagicNumber`, the error value of `map_page` and `alloc_page`. -/
def magicNumber : ℕ := 1048577

/-- `VM_USERLO`. -/
def vmUserLo : ℕ := 0x40000000

/-- `VM_USERHI`. -/
def vmUserHi : ℕ := 0xF0000000

/-- Where the link puts the identity page tables `IDPTbl`: page aligned, in the
kernel's memory below the user range. -/
structure KernelImage where
  idptbl : ℕ
  aligned : idptbl % 4096 = 0
  low : idptbl + 1024 * 4096 ≤ vmUserLo

/-- The state of the memory layers: allocator and containers, page directories,
physical memory. -/
structure Vm where
  pmm : Pmm
  PDirPool : ℕ → ℕ → ℕ
  mem : Mem

namespace Vm

/-! ### `MPTIntro` -/

def getPdirEntry (s : Vm) (proc pde : ℕ) : ℕ := s.PDirPool proc pde

def putPdirEntry (s : Vm) (proc pde v : ℕ) : Vm :=
  { s with PDirPool := Function.update s.PDirPool proc (Function.update (s.PDirPool proc) pde v) }

/-- Frame address and the permissions `PTE_P | PTE_W | PTE_U`. -/
def setPdirEntry (s : Vm) (proc pde page : ℕ) : Vm :=
  s.putPdirEntry proc pde ((page * 4096 + 7) % 2 ^ 32)

def setPdirEntryIdentity (K : KernelImage) (s : Vm) (proc pde : ℕ) : Vm :=
  s.putPdirEntry proc pde (K.idptbl + pde * 4096 + 7)

def rmvPdirEntry (s : Vm) (proc pde : ℕ) : Vm := s.putPdirEntry proc pde 0

/-- `(PDirPool[proc][pde] & 0xfffff000) + pte * 4`. -/
def ptblAddr (s : Vm) (proc pde pte : ℕ) : ℕ := s.PDirPool proc pde / 4096 * 4096 + pte * 4

def getPtblEntry (s : Vm) (proc pde pte : ℕ) : ℕ := read32 s.mem (s.ptblAddr proc pde pte)

def setPtblEntry (s : Vm) (proc pde pte page perm : ℕ) : Vm :=
  { s with mem := write32 s.mem (s.ptblAddr proc pde pte) ((page * 4096 + perm) % 2 ^ 32) }

def setPtblEntryIdentity (K : KernelImage) (s : Vm) (pde pte perm : ℕ) : Vm :=
  let v := (pde * 1024 + pte) * 4096 + perm
  { s with mem := write32 s.mem (K.idptbl + pde * 4096 + pte * 4) v }

def rmvPtblEntry (s : Vm) (proc pde pte : ℕ) : Vm :=
  { s with mem := write32 s.mem (s.ptblAddr proc pde pte) 0 }

/-! ### `MPTOp` -/

def getPtblEntryByVa (s : Vm) (proc va : ℕ) : ℕ :=
  if s.getPdirEntry proc (va / (4096 * 1024)) = 0 then 0
  else s.getPtblEntry proc (va / (4096 * 1024)) (va / 4096 % 1024)

def getPdirEntryByVa (s : Vm) (proc va : ℕ) : ℕ := s.getPdirEntry proc (va / (4096 * 1024))

def rmvPtblEntryByVa (s : Vm) (proc va : ℕ) : Vm :=
  s.rmvPtblEntry proc (va / (4096 * 1024)) (va / 4096 % 1024)

def rmvPdirEntryByVa (s : Vm) (proc va : ℕ) : Vm := s.rmvPdirEntry proc (va / (4096 * 1024))

def setPtblEntryByVa (s : Vm) (proc va page perm : ℕ) : Vm :=
  s.setPtblEntry proc (va / (4096 * 1024)) (va / 4096 % 1024) page perm

def setPdirEntryByVa (s : Vm) (proc va page : ℕ) : Vm :=
  s.setPdirEntry proc (va / (4096 * 1024)) page

/-- The permission `idptbl_init` gives to the entries of directory slot `i`:
`PTE_P | PTE_W`, with `PTE_G` for the kernel's range. -/
def idPerm (i : ℕ) : ℕ := if i < 256 ∨ 960 ≤ i then 0x103 else 0x003

/-- `idptbl_init`, on top of `container_init` and the memory contents at boot. -/
def idptblInit (K : KernelImage) (p : Pmm) (mem : Mem) : Vm :=
  loop (fun i s => loop (fun j s => setPtblEntryIdentity K s i j (idPerm i)) 1024 s) 1024
    ⟨p, fun _ _ => 0, mem⟩

/-! ### `MPTComm` -/

def pdirInit (K : KernelImage) (p : Pmm) (mem : Mem) : Vm :=
  loop (fun i s =>
    loop (fun j s =>
      if j < 256 ∨ 960 ≤ j then setPdirEntryIdentity K s i j else rmvPdirEntry s i j) 1024 s)
    numIds (idptblInit K p mem)

def containerAlloc (s : Vm) (id : ℕ) : ℕ × Vm :=
  let (p, m) := s.pmm.containerAlloc id
  (p, { s with pmm := m })

def containerFree (s : Vm) (id page : ℕ) : Vm :=
  { s with pmm := s.pmm.containerFree id page }

def allocPtbl (s : Vm) (proc va : ℕ) : ℕ × Vm :=
  let (pi, s₁) := s.containerAlloc proc
  if pi ≠ 0 then
    let s₂ := s₁.setPdirEntryByVa proc va pi
    (pi, loop (fun i s => s.rmvPtblEntry proc (va / (4096 * 1024)) i) 1024 s₂)
  else (pi, s₁)

def freePtbl (s : Vm) (proc va : ℕ) : Vm :=
  let pde := s.getPdirEntryByVa proc va
  (s.rmvPdirEntryByVa proc va).containerFree proc (pde / 4096)

/-! ### `MPTKern` -/

/-- `pdir_init_kern`: process `0` gets the identity map everywhere. -/
def pdirInitKern (K : KernelImage) (p : Pmm) (mem : Mem) : Vm :=
  loop (fun i s => setPdirEntryIdentity K s 0 (256 + i)) (960 - 256) (pdirInit K p mem)

def mapPage (s : Vm) (proc va page perm : ℕ) : ℕ × Vm :=
  let pdirEntry := s.getPdirEntryByVa proc va
  let (result, s₁) :=
    if pdirEntry ≠ 0 then (0, s)
    else
      let (r, s₁) := s.allocPtbl proc va
      if r = 0 then (magicNumber, s₁) else (r, s₁)
  if result ≠ magicNumber then (result, s₁.setPtblEntryByVa proc va page perm)
  else (result, s₁)

def unmapPage (s : Vm) (proc va : ℕ) : ℕ × Vm :=
  let ptblEntry := s.getPtblEntryByVa proc va
  if ptblEntry ≠ 0 then (ptblEntry, s.rmvPtblEntryByVa proc va) else (ptblEntry, s)

/-! ### `MPTNew` -/

def allocPage (s : Vm) (proc va perm : ℕ) : ℕ × Vm :=
  let (pi, s₁) := s.containerAlloc proc
  if pi = 0 then (magicNumber, s₁) else s₁.mapPage proc va pi perm

/-- `alloc_mem_quota`, the only caller of `container_split`. -/
def allocMemQuota (s : Vm) (id quota : ℕ) : ℕ × Vm :=
  let (child, m) := s.pmm.containerSplit id quota
  (child, { s with pmm := m })

end Vm

end Mcertikos
