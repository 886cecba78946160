/-
Byte-addressed memory with little-endian words, and counted loops.

A memory is a function from addresses to bytes.  `read16`/`write16` and
`read32`/`write32` are the little-endian accesses.  The rules are

* a read at the address of a write returns the value (`read32_write32_same`);
* a read that a write does not touch is unchanged (`read32_write32_of_disjoint`,
  `read32_congr`);
* `loop_induct` — the invariant rule of a counted loop.
-/
import Mathlib.Tactic

namespace Memory

/-- A memory: a byte at every address. -/
abbrev Mem := ℕ → UInt8

/-! ### Counted loops -/

/-- `for (i = 0; i < n; i++) s = body i s`. -/
def loop {σ : Type*} (body : ℕ → σ → σ) : ℕ → σ → σ
  | 0, s => s
  | n + 1, s => body n (loop body n s)

/-- The invariant rule: what holds before round `0` and is kept by every round
holds after the loop. -/
theorem loop_induct {σ : Type*} {body : ℕ → σ → σ} {s : σ} (P : ℕ → σ → Prop) (h0 : P 0 s)
    (n : ℕ) (hstep : ∀ i, i < n → ∀ t, P i t → P (i + 1) (body i t)) :
    P n (loop body n s) := by
  induction n with
  | zero => exact h0
  | succ n ih =>
    exact hstep n (Nat.lt_succ_self n) _ (ih fun i hi => hstep i (Nat.lt_succ_of_lt hi))

/-! ### Words -/

def read16 (m : Mem) (a : ℕ) : ℕ := (m a).toNat + 256 * (m (a + 1)).toNat

def write16 (m : Mem) (a v : ℕ) : Mem := fun x =>
  if x = a then UInt8.ofNat v
  else if x = a + 1 then UInt8.ofNat (v / 256)
  else m x

def read32 (m : Mem) (a : ℕ) : ℕ :=
  (m a).toNat + 256 * (m (a + 1)).toNat + 65536 * (m (a + 2)).toNat + 16777216 * (m (a + 3)).toNat

def write32 (m : Mem) (a v : ℕ) : Mem := fun x =>
  if x = a then UInt8.ofNat v
  else if x = a + 1 then UInt8.ofNat (v / 256)
  else if x = a + 2 then UInt8.ofNat (v / 65536)
  else if x = a + 3 then UInt8.ofNat (v / 16777216)
  else m x

theorem read16_congr {m m' : Mem} {a : ℕ} (h : ∀ x, a ≤ x → x < a + 2 → m' x = m x) :
    read16 m' a = read16 m a := by
  unfold read16
  rw [h a (by omega) (by omega), h (a + 1) (by omega) (by omega)]

theorem read32_congr {m m' : Mem} {a : ℕ} (h : ∀ x, a ≤ x → x < a + 4 → m' x = m x) :
    read32 m' a = read32 m a := by
  unfold read32
  rw [h a (by omega) (by omega), h (a + 1) (by omega) (by omega),
    h (a + 2) (by omega) (by omega), h (a + 3) (by omega) (by omega)]

theorem write16_of_outside {m : Mem} {a v x : ℕ} (h : x < a ∨ a + 2 ≤ x) :
    write16 m a v x = m x := by
  unfold write16
  rw [if_neg (by omega), if_neg (by omega)]

theorem write32_of_outside {m : Mem} {a v x : ℕ} (h : x < a ∨ a + 4 ≤ x) :
    write32 m a v x = m x := by
  unfold write32
  rw [if_neg (by omega), if_neg (by omega), if_neg (by omega), if_neg (by omega)]

theorem read32_write32_same {m : Mem} {a v : ℕ} (h : v < 2 ^ 32) :
    read32 (write32 m a v) a = v := by
  unfold read32 write32
  simp only [if_true, if_neg (by omega : ¬ a + 1 = a), if_neg (by omega : ¬ a + 2 = a),
    if_neg (by omega : ¬ a + 2 = a + 1), if_neg (by omega : ¬ a + 3 = a),
    if_neg (by omega : ¬ a + 3 = a + 1), if_neg (by omega : ¬ a + 3 = a + 2),
    UInt8.toNat_ofNat']
  omega

theorem read32_write32_of_disjoint {m : Mem} {a b v : ℕ} (h : a + 4 ≤ b ∨ b + 4 ≤ a) :
    read32 (write32 m a v) b = read32 m b :=
  read32_congr fun _ _ _ => write32_of_outside (by omega)

end Memory
