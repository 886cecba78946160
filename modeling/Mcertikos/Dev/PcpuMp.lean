/-
The processor tables of the firmware (`dev/pcpu_mp.c`).

`pcpu_mp_init` walks through the entries of the MADT and `mp_init_fallback` through those of
the MP configuration table.  The position of the next entry is read from the table: the MADT
has a length in each entry, the MP table a size for each known type.

* `Walk.Reaches` — the positions that such a loop comes to;
* `Walk.ends_iff` — a loop below the end of the address space ends exactly if it moves on from
  each of them;
* `table_walks_end_iff` — so the loops end exactly if no entry that is reached has length `0`,
  or a type that the MP specification of the loop does not know.

Design notes: `p` and `e` are 32-bit pointers.  The tests of the tables are those of
`acpi_probe_rsdt_ent` and `mpconfig`; what the entries record is carried along.
-/
import Mcertikos.Lib.Memory

namespace Mcertikos

open Memory

/-! ### Walks -/

namespace Walk

variable {σ : Type} (next : ℕ → ℕ) (entry : ℕ → σ → σ) (e : ℕ)

/-- `while (p < e) { entry; p = next }`, in at most `k` rounds. -/
def loop : ℕ → ℕ → σ → Option σ
  | 0, _, _ => none
  | k + 1, p, s => if p < e then loop k (next p) (entry p s) else some s

def Ends (p : ℕ) (s : σ) : Prop := ∃ k, (loop next entry e k p s).isSome = true

/-- The loop comes from `p` to an entry at `q`. -/
inductive Reaches : ℕ → ℕ → Prop
  | here {p : ℕ} (h : p < e) : Reaches p p
  | step {p q : ℕ} (h : p < e) (hq : Reaches (next p) q) : Reaches p q

variable {next entry e} {p q : ℕ} {s : σ}

theorem Reaches.lt (h : Reaches next e p q) : q < e := by
  induction h with
  | here hp => exact hp
  | step _ _ ih => exact ih

/-- The only entry of a table. -/
theorem Reaches.eq_of_last (h : Reaches next e p q) (hlast : e ≤ next p) : q = p := by
  cases h with
  | here => rfl
  | step _ hq => cases hq <;> omega

/-- A position that is its own successor is never left. -/
theorem loop_stuck (hq : q < e) (hnext : next q = q) (k : ℕ) :
    ∀ s : σ, loop next entry e k q s = none := by
  induction k with
  | zero => exact fun _ => rfl
  | succ k ih =>
    intro s
    rw [loop, if_pos hq, hnext, ih]

theorem not_ends_of_reaches (h : Reaches next e p q) (hnext : next q = q) (s : σ) :
    ¬ Ends next entry e p s := by
  rintro ⟨k, hk⟩
  induction h generalizing k s with
  | here hp =>
    rw [loop_stuck hp hnext] at hk
    exact nomatch hk
  | step hp _ ih =>
    cases k with
    | zero => exact nomatch hk
    | succ k =>
      rw [loop, if_pos hp] at hk
      exact ih hnext _ k hk

/-- The distance to the end gets smaller where the loop moves on. -/
theorem ends_of_moves (n : ℕ) : ∀ {p : ℕ} {s : σ}, e - p ≤ n →
    (∀ q, Reaches next e p q → q < next q) → Ends next entry e p s := by
  induction n with
  | zero =>
    intro p s hn _
    exact ⟨1, by rw [loop, if_neg (by omega)]; rfl⟩
  | succ n ih =>
    intro p s hn hmoves
    by_cases hp : p < e
    · have hlt := hmoves p (.here hp)
      obtain ⟨k, hk⟩ := @ih (next p) (entry p s) (by omega) fun q hq => hmoves q (.step hp hq)
      exact ⟨k + 1, by rw [loop, if_pos hp]; exact hk⟩
    · exact ⟨1, by rw [loop, if_neg hp]; rfl⟩

/-- **A walk that does not wrap around** ends exactly if it moves on from each entry. -/
theorem ends_iff (hnext : ∀ q, q < e → q ≤ next q) (p : ℕ) (s : σ) :
    Ends next entry e p s ↔ ∀ q, Reaches next e p q → next q ≠ q := by
  refine ⟨fun h q hq he => not_ends_of_reaches hq he s h, fun h => ?_⟩
  exact ends_of_moves (e - p) le_rfl fun q hq => lt_of_le_of_ne (hnext q hq.lt) (h q hq).symm

end Walk

/-! ### What the entries record -/

/-- The processors and I/O APICs that have been found. -/
structure PcpuMp where
  ncpu : ℕ
  apIdx : ℕ
  foundBsp : Bool
  -- `lapicid` and `bsp` of each processor
  pcpu : ℕ → ℕ × Bool
  -- address, id and first interrupt
  ioapics : List (ℕ × ℕ × ℕ)

namespace PcpuMp

/-- Before the first entry. -/
def start : PcpuMp := ⟨0, 1, false, fun _ => (0, false), []⟩

/-- `pcpu_mp_init_cpu`; there is room for `NUM_CPUS` processors. -/
def pcpuMpInitCpu (s : PcpuMp) (idx lapicId : ℕ) (isBsp : Bool) : PcpuMp :=
  if 8 ≤ idx then s else { s with pcpu := Function.update s.pcpu idx (lapicId, isBsp) }

/-- `ioapic_register`; there is room for `MAX_IOAPIC`. -/
def ioapicRegister (s : PcpuMp) (addr id gsi : ℕ) : PcpuMp :=
  if 16 ≤ s.ioapics.length then s else { s with ioapics := s.ioapics ++ [(addr, id, gsi)] }

/-- An enabled processor; `found_bsp` is only read in the loop over the MADT. -/
def addCpu (s : PcpuMp) (lapicId : ℕ) (isBsp : Bool) : PcpuMp :=
  let s₁ :=
    if isBsp then { s.pcpuMpInitCpu 0 lapicId true with foundBsp := true }
    else { s.pcpuMpInitCpu s.apIdx lapicId false with apIdx := (s.apIdx + 1) % 2 ^ 32 }
  { s₁ with ncpu := (s.ncpu + 1) % 2 ^ 32 }

variable (m : Mem)

/-- The switch of the loop of `pcpu_mp_init`: the first enabled processor is the boot
processor. -/
def madtEntry (p : ℕ) (s : PcpuMp) : PcpuMp :=
  match (m p).toNat with
  | 0 =>
    if (m (p + 4)).toNat % 2 = 0 then s else s.addCpu (m (p + 3)).toNat (!s.foundBsp)
  | 1 => s.ioapicRegister (read32 m (p + 4)) (m (p + 2)).toNat (read32 m (p + 8))
  | _ => s

/-- `p += hdr->length`. -/
def madtNext (p : ℕ) : ℕ := (p + (m (p + 1)).toNat) % 2 ^ 32

/-- The switch of the loop of `mp_init_fallback`. -/
def mpEntry (p : ℕ) (s : PcpuMp) : PcpuMp :=
  match (m p).toNat with
  | 0 =>
    if (m (p + 3)).toNat % 2 = 0 then s
    else s.addCpu (m (p + 1)).toNat ((m (p + 3)).toNat / 2 % 2 == 1)
  | 2 => s.ioapicRegister (read32 m (p + 4)) (m (p + 1)).toNat 0
  | _ => s

/-- `p` after an entry: `MPPROC`, or one of `MPBUS`, `MPIOAPIC`, `MPIOINTR` and `MPLINTR`.  For
other types there is only a warning. -/
def mpNext (p : ℕ) : ℕ :=
  if (m p).toNat = 0 then (p + 20) % 2 ^ 32
  else if (m p).toNat ≤ 4 then (p + 8) % 2 ^ 32
  else p

/-- `sum`: `len` is an `int`. -/
def sum (addr len : ℕ) : ℕ :=
  if len < 2 ^ 31 then ((List.range len).map fun i => (m (addr + i)).toNat).sum % 256 else 0

/-- The tests of `acpi_probe_rsdt_ent` for the MADT. -/
def madtOk (madt : ℕ) : Prop := read32 m madt = 0x43495041 ∧ sum m madt (read32 m (madt + 4)) = 0

instance (madt : ℕ) : Decidable (madtOk m madt) := inferInstanceAs (Decidable (_ ∧ _))

/-- The tests of `mpconfig`: `"PCMP"`, the version and the checksum. -/
def mpconfigOk (conf : ℕ) : Prop :=
  read32 m conf = 0x504D4350 ∧ ((m (conf + 6)).toNat = 1 ∨ (m (conf + 6)).toNat = 4) ∧
    sum m conf (read16 m (conf + 4)) = 0

instance (conf : ℕ) : Decidable (mpconfigOk m conf) := inferInstanceAs (Decidable (_ ∧ _))

/-- The end of the MADT, from its length field. -/
def madtEnd (madt : ℕ) : ℕ := (madt + read32 m (madt + 4)) % 2 ^ 32

def mpEnd (conf : ℕ) : ℕ := (conf + read16 m (conf + 4)) % 2 ^ 32

def MadtEnds (madt : ℕ) (s : PcpuMp) : Prop :=
  Walk.Ends (madtNext m) (madtEntry m) (madtEnd m madt) ((madt + 44) % 2 ^ 32) s

def MpEnds (conf : ℕ) (s : PcpuMp) : Prop :=
  Walk.Ends (mpNext m) (mpEntry m) (mpEnd m conf) ((conf + 44) % 2 ^ 32) s

def MadtReaches (madt : ℕ) : ℕ → Prop :=
  Walk.Reaches (madtNext m) (madtEnd m madt) ((madt + 44) % 2 ^ 32)

def MpReaches (conf : ℕ) : ℕ → Prop :=
  Walk.Reaches (mpNext m) (mpEnd m conf) ((conf + 44) % 2 ^ 32)

variable {m} {p : ℕ}

theorem madtNext_of_lt (h : p + 255 < 2 ^ 32) : madtNext m p = p + (m (p + 1)).toNat := by
  have := (m (p + 1)).toNat_lt
  exact Nat.mod_eq_of_lt (by omega)

theorem mpNext_cases (h : p + 20 < 2 ^ 32) :
    (m p).toNat ≤ 4 ∧ p < mpNext m p ∨ 4 < (m p).toNat ∧ mpNext m p = p := by
  unfold mpNext
  split
  · omega
  · split <;> omega

/-- **The walks through the tables** end exactly if no entry of the MADT that is reached has length
`0`, and no entry of the MP table that is reached has an unknown type.  The tables are not to end
at the end of the address space. -/
theorem table_walks_end_iff (m : Mem) (s : PcpuMp) : (∀ madt, madtEnd m madt + 254 < 2 ^ 32 →
      (MadtEnds m madt s ↔ ∀ p, MadtReaches m madt p → m (p + 1) ≠ 0)) ∧
    ∀ conf, mpconfigOk m conf → mpEnd m conf + 19 < 2 ^ 32 →
      (MpEnds m conf s ↔ ∀ p, MpReaches m conf p → (m p).toNat ≤ 4) := by
  refine ⟨fun madt hend => ?_, fun conf _ hend => ?_⟩
  · have hnext : ∀ q, q < madtEnd m madt → madtNext m q = q + (m (q + 1)).toNat :=
      fun q hq => madtNext_of_lt (by omega)
    refine (Walk.ends_iff (fun q hq => by rw [hnext q hq]; omega) _ s).trans
      (forall₂_congr fun q hq => ?_)
    rw [hnext q hq.lt, Ne, Nat.add_eq_left]
    exact not_congr (@UInt8.toNat_inj (m (q + 1)) 0)
  · have hcases : ∀ q, q < mpEnd m conf → _ := fun q hq => @mpNext_cases m q (by omega)
    refine (Walk.ends_iff (fun q hq => ?_) _ s).trans (forall₂_congr fun q hq => ?_)
    · rcases hcases q hq with h | h <;> omega
    · rcases hcases q hq.lt with h | h <;> omega

/-- A memory with some bytes. -/
def bytesAt (l : List (ℕ × UInt8)) : Mem := fun x => (l.lookup x).getD 0

/-- A MADT with an enabled processor, and an MP table with a bus. -/
def plainTables : Mem := bytesAt
  [(0x1000, 0x41), (0x1001, 0x50), (0x1002, 0x49), (0x1003, 0x43), (0x1004, 52), (0x1009, 166),
    (0x102D, 8), (0x1030, 1),
    (0x2000, 0x50), (0x2001, 0x43), (0x2002, 0x4D), (0x2003, 0x50), (0x2004, 52), (0x2006, 4),
    (0x2007, 151), (0x202C, 1)]

theorem table_walks_end_iff_plain :
    madtOk plainTables 0x1000 ∧ MadtEnds plainTables 0x1000 start ∧
    mpconfigOk plainTables 0x2000 ∧ MpEnds plainTables 0x2000 start := by
  have hmp : mpconfigOk plainTables 0x2000 := by decide +kernel
  refine ⟨by decide +kernel, ((table_walks_end_iff plainTables start).1 0x1000
    (by decide +kernel)).mpr fun p hp => ?_, hmp,
    ((table_walks_end_iff plainTables start).2 0x2000 hmp (by decide +kernel)).mpr fun p hp => ?_⟩
  · rw [Walk.Reaches.eq_of_last hp (by decide +kernel)]
    decide +kernel
  · rw [Walk.Reaches.eq_of_last hp (by decide +kernel)]
    decide +kernel

/-- A MADT with an entry of length `0`, and an MP table with an entry of type `5`. -/
def badTables : Mem := bytesAt
  [(0x1000, 0x41), (0x1001, 0x50), (0x1002, 0x49), (0x1003, 0x43), (0x1004, 52), (0x1009, 175),
    (0x2000, 0x50), (0x2001, 0x43), (0x2002, 0x4D), (0x2003, 0x50), (0x2004, 45), (0x2006, 4),
    (0x2007, 154), (0x202C, 5)]

/-- Both tables pass their tests, and the loops stay at their first entries. -/
theorem table_walks_hang :
    madtOk badTables 0x1000 ∧ ¬ MadtEnds badTables 0x1000 start ∧
    mpconfigOk badTables 0x2000 ∧ ¬ MpEnds badTables 0x2000 start :=
  ⟨by decide +kernel, Walk.not_ends_of_reaches (.here (by decide +kernel)) (by decide +kernel) _,
    by decide +kernel, Walk.not_ends_of_reaches (.here (by decide +kernel)) (by decide +kernel) _⟩

end PcpuMp

end Mcertikos
