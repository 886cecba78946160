/-
`memset` and `memmove` (`lib/string.c`).

Both are written with the string instructions of the processor, four bytes at a time where
the addresses and the length allow it.  `memmove` goes downwards if the destination starts
inside of the source.

* `repMovs_up`, `repMovs_down` — the instruction in both directions, for elements of any size:
  no byte is overwritten before it is read;
* `memmove_memset_bytes` — on every path the two functions do what is said byte by byte;
* `memmove_eq_memcpy`, `memset_eq` — so they are the functions that the copies to and from
  user memory are modelled with.
-/
import Mcertikos.Vmm.UserMem

namespace Mcertikos

namespace StringOps

open Memory

/-! ### The string instructions -/

/-- `movsb` and `movsl`: an element is read as a whole before it is written. -/
def movs (size : ℕ) (m : Mem) (edi esi : ℕ) : Mem :=
  fun x => if edi ≤ x ∧ x < edi + size then m (esi + (x - edi)) else m x

/-- `stosb` and `stosl`: the low bytes of `eax`. -/
def stos (size : ℕ) (m : Mem) (edi eax : ℕ) : Mem :=
  fun x => if edi ≤ x ∧ x < edi + size then UInt8.ofNat (eax / 256 ^ (x - edi)) else m x

/-- The address of the next element, downwards after `std`. -/
def advance (down : Bool) (size a : ℕ) : ℕ :=
  if down then (a + 2 ^ 32 - size) % 2 ^ 32 else (a + size) % 2 ^ 32

/-- `rep movs` with count `ecx`. -/
def repMovs (down : Bool) (size : ℕ) : ℕ → Mem → ℕ → ℕ → Mem
  | 0, m, _, _ => m
  | ecx + 1, m, edi, esi =>
    repMovs down size ecx (movs size m edi esi) (advance down size edi) (advance down size esi)

/-- `cld; rep stos` with count `ecx`. -/
def repStos (size eax : ℕ) : ℕ → Mem → ℕ → Mem
  | 0, m, _ => m
  | ecx + 1, m, edi => repStos size eax ecx (stos size m edi eax) (advance false size edi)

variable {size k d s x : ℕ} {m : Mem}

theorem advance_up (h : x + size < 2 ^ 32) : advance false size x = x + size := by
  rw [advance, if_neg Bool.false_ne_true, Nat.mod_eq_of_lt h]

theorem advance_down (size a : ℕ) : advance true size a = (a + 2 ^ 32 - size) % 2 ^ 32 := by
  rw [advance, if_pos rfl]

/-- Upwards, with the destination below the source or apart from it. -/
theorem repMovs_up (hsize : 0 < size) (k : ℕ) : ∀ {m : Mem} {d s : ℕ}, d + size * k ≤ 2 ^ 32 →
    s + size * k ≤ 2 ^ 32 → (d ≤ s ∨ s + size * k ≤ d) →
    repMovs false size k m d s x = if d ≤ x ∧ x < d + size * k then m (s + (x - d)) else m x := by
  induction k with
  | zero =>
    intro m d s _ _ _
    rw [repMovs, if_neg (by omega)]
  | succ k ih =>
    intro m d s hd hs hdir
    rw [Nat.mul_succ] at hd hs hdir
    rw [repMovs]
    rcases Nat.eq_zero_or_pos k with rfl | hk
    · rw [repMovs, movs, Nat.zero_add, Nat.mul_one]
    have hpos : 0 < size * k := Nat.mul_pos hsize hk
    rw [advance_up (by omega), advance_up (by omega), ih (by omega) (by omega) (by omega), Nat.mul_succ]
    by_cases hin : d + size ≤ x ∧ x < d + size + size * k
    · -- this byte of the source is not among those written by the first element
      rw [if_pos hin, if_pos (by omega), movs, if_neg (by omega)]
      exact congrArg m (by omega)
    · rw [if_neg hin, movs]
      exact if_congr (by omega) rfl rfl

/-- Downwards from the last element, with the source below the destination. -/
theorem repMovs_down (hsize : 0 < size) (hsd : s ≤ d) (k : ℕ) : ∀ {m : Mem}, d + size * k ≤ 2 ^ 32 →
    repMovs true size k m ((d + size * k + 2 ^ 32 - size) % 2 ^ 32)
        ((s + size * k + 2 ^ 32 - size) % 2 ^ 32) x
      = if d ≤ x ∧ x < d + size * k then m (s + (x - d)) else m x := by
  induction k with
  | zero =>
    intro m _
    rw [repMovs, if_neg (by omega)]
  | succ k ih =>
    intro m hd
    rw [Nat.mul_succ] at hd ⊢
    have hd' : (d + (size * k + size) + 2 ^ 32 - size) % 2 ^ 32 = d + size * k := by omega
    have hs' : (s + (size * k + size) + 2 ^ 32 - size) % 2 ^ 32 = s + size * k := by omega
    rw [hd', hs', repMovs, advance_down, advance_down, ih (by omega)]
    by_cases hin : d ≤ x ∧ x < d + size * k
    · rw [if_pos hin, if_pos (by omega), movs, if_neg (by omega)]
    · rw [if_neg hin, movs]
      by_cases hlast : d + size * k ≤ x ∧ x < d + size * k + size
      · rw [if_pos hlast, if_pos (by omega)]
        exact congrArg m (by omega)
      · rw [if_neg hlast, if_neg (by omega)]

theorem repStos_eq {eax : ℕ} {b : UInt8} (hsize : 0 < size)
    (hb : ∀ j, j < size → UInt8.ofNat (eax / 256 ^ j) = b) (k : ℕ) :
    ∀ {m : Mem} {d : ℕ}, d + size * k ≤ 2 ^ 32 →
      repStos size eax k m d x = if d ≤ x ∧ x < d + size * k then b else m x := by
  induction k with
  | zero =>
    intro m d _
    rw [repStos, if_neg (by omega)]
  | succ k ih =>
    intro m d hd
    rw [Nat.mul_succ] at hd ⊢
    have hfirst : stos size m d eax x = if d ≤ x ∧ x < d + size then b else m x := by
      unfold stos
      by_cases hin : d ≤ x ∧ x < d + size
      · rw [if_pos hin, if_pos hin, hb _ (by omega)]
      · rw [if_neg hin, if_neg hin]
    rw [repStos]
    rcases Nat.eq_zero_or_pos k with rfl | hk
    · rw [repStos, hfirst, Nat.mul_zero, Nat.zero_add]
    have hpos : 0 < size * k := Nat.mul_pos hsize hk
    rw [advance_up (by omega), ih (by omega)]
    by_cases hin : d + size ≤ x ∧ x < d + size + size * k
    · rw [if_pos hin, if_pos (by omega)]
    · rw [if_neg hin, hfirst]
      exact if_congr (by omega) rfl rfl

/-! ### `memset` and `memmove` -/

/-- `memset(v, c, n)`. -/
def memset (m : Mem) (v : ℕ) (c : ℤ) (n : ℕ) : Mem :=
  if n = 0 then m
  else if v % 4 = 0 ∧ n % 4 = 0 then
    let c := (c % 256).toNat
    repStos 4 (c <<< 24 ||| c <<< 16 ||| c <<< 8 ||| c) (n / 4) m v
  else repStos 1 (c % 2 ^ 32).toNat n m v

/-- `memmove(dst, src, n)`; the end of the source is a 32-bit pointer like the others. -/
def memmove (m : Mem) (dst src n : ℕ) : Mem :=
  if src < dst ∧ dst < (src + n) % 2 ^ 32 then
    let s := (src + n) % 2 ^ 32
    let d := (dst + n) % 2 ^ 32
    if s % 4 = 0 ∧ d % 4 = 0 ∧ n % 4 = 0 then
      repMovs true 4 (n / 4) m ((d + 2 ^ 32 - 4) % 2 ^ 32) ((s + 2 ^ 32 - 4) % 2 ^ 32)
    else repMovs true 1 n m ((d + 2 ^ 32 - 1) % 2 ^ 32) ((s + 2 ^ 32 - 1) % 2 ^ 32)
  else if src % 4 = 0 ∧ dst % 4 = 0 ∧ n % 4 = 0 then repMovs false 4 (n / 4) m dst src
  else repMovs false 1 n m dst src

/-- `c mod 256` as a byte. -/
def byteOf (c : ℤ) : UInt8 := UInt8.ofNat (c % 256).toNat

/-- Every byte of the word for the wide path is the low byte of `c`. -/
theorem byte_of_word : ∀ c, c < 256 → ∀ j, j < 4 →
    (c <<< 24 ||| c <<< 16 ||| c <<< 8 ||| c) / 256 ^ j % 256 = c := by
  decide +kernel

theorem uint8_ofNat_mod (a : ℕ) : UInt8.ofNat (a % 256) = UInt8.ofNat a := by
  refine UInt8.toNat_inj.mp ?_
  rw [UInt8.toNat_ofNat', UInt8.toNat_ofNat', Nat.mod_mod]

theorem memset_apply {v n : ℕ} (c : ℤ) (hv : v + n ≤ 2 ^ 32) :
    memset m v c n x = if v ≤ x ∧ x < v + n then byteOf c else m x := by
  unfold memset
  by_cases hn : n = 0
  · rw [if_pos hn, if_neg (by omega)]
  rw [if_neg hn]
  by_cases hwide : v % 4 = 0 ∧ n % 4 = 0
  · rw [if_pos hwide]
    have hfour : 4 * (n / 4) = n := by omega
    have hlt : (c % 256).toNat < 256 := by omega
    rw [repStos_eq (b := byteOf c) (by norm_num) (fun j hj => ?_) _ (by omega), hfour]
    rw [← uint8_ofNat_mod, byte_of_word _ hlt j hj, byteOf]
  · rw [if_neg hwide, repStos_eq (b := byteOf c) (by norm_num) (fun j hj => ?_) _ (by omega),
      Nat.one_mul]
    obtain rfl : j = 0 := by omega
    have hlow : (c % 2 ^ 32).toNat % 256 = (c % 256).toNat := by omega
    rw [pow_zero, Nat.div_one, ← uint8_ofNat_mod, hlow, byteOf]

theorem memmove_apply {dst src n : ℕ} (hd : dst + n ≤ 2 ^ 32) (hs : src + n ≤ 2 ^ 32) :
    memmove m dst src n x = if dst ≤ x ∧ x < dst + n then m (src + (x - dst)) else m x := by
  have hend : ∀ a j, j < 2 ^ 32 →
      ((a + n) % 2 ^ 32 + 2 ^ 32 - j) % 2 ^ 32 = (a + n + 2 ^ 32 - j) % 2 ^ 32 := by omega
  unfold memmove
  by_cases hback : src < dst ∧ dst < (src + n) % 2 ^ 32
  · rw [if_pos hback]
    split
    · rename_i hal
      have hfour : 4 * (n / 4) = n := by omega
      have h := @repMovs_down 4 dst src x (by norm_num) hback.1.le (n / 4) m (by omega)
      rw [hfour] at h
      rw [hend dst 4 (by norm_num), hend src 4 (by norm_num)]
      exact h
    · have h := @repMovs_down 1 dst src x (by norm_num) hback.1.le n m (by omega)
      rw [Nat.one_mul] at h
      rw [hend dst 1 (by norm_num), hend src 1 (by norm_num)]
      exact h
  · -- the destination starts below the source or behind its end
    rw [if_neg hback]
    split
    · have hfour : 4 * (n / 4) = n := by omega
      rw [repMovs_up (by norm_num) _ (by omega) (by omega) (by omega), hfour]
    · rw [repMovs_up (by norm_num) _ (by omega) (by omega) (by omega), Nat.one_mul]

/-- **Byte by byte**: for ranges that do not wrap around, whatever their overlap, `memmove` leaves
the bytes that the source had in the destination and changes no other byte, and `memset` sets its
range to `c mod 256` and changes no other byte. -/
theorem memmove_memset_bytes (m : Mem) : (∀ dst src n, dst + n ≤ 2 ^ 32 → src + n ≤ 2 ^ 32 →
      (∀ i, i < n → memmove m dst src n (dst + i) = m (src + i)) ∧
      ∀ x, x < dst ∨ dst + n ≤ x → memmove m dst src n x = m x) ∧
    ∀ v (c : ℤ) n, v + n ≤ 2 ^ 32 →
      (∀ i, i < n → memset m v c n (v + i) = byteOf c) ∧
      ∀ x, x < v ∨ v + n ≤ x → memset m v c n x = m x := by
  refine ⟨fun dst src n hd hs => ⟨fun i hi => ?_, fun x hx => ?_⟩,
    fun v c n hv => ⟨fun i hi => ?_, fun x hx => ?_⟩⟩
  · rw [memmove_apply hd hs, if_pos (by omega), Nat.add_sub_cancel_left]
  · rw [memmove_apply hd hs, if_neg (by omega)]
  · rw [memset_apply c hv, if_pos (by omega)]
  · rw [memset_apply c hv, if_neg (by omega)]

/-- Eight bytes moved up by four, downwards with `movsl`; and three bytes set to `-1`. -/
theorem memmove_memset_bytes_overlap :
    (∀ i, i < 8 → memmove (fun x => UInt8.ofNat x) 0x1004 0x1000 8 (0x1004 + i)
      = UInt8.ofNat (0x1000 + i)) ∧
    ∀ i, i < 3 → memset (fun _ => 0) 0x1001 (-1) 3 (0x1001 + i) = 255 :=
  ⟨((memmove_memset_bytes fun x => UInt8.ofNat x).1 0x1004 0x1000 8 (by norm_num) (by norm_num)).1,
    ((memmove_memset_bytes fun _ => 0).2 0x1001 (-1) 3 (by norm_num)).1⟩

/-! ### The functions of the copies -/

theorem memmove_eq_memcpy {dst src n : ℕ} (hd : dst + n ≤ 2 ^ 32) (hs : src + n ≤ 2 ^ 32) :
    memmove m dst src n = memcpy m dst src n := by
  funext x
  rw [memmove_apply hd hs]
  by_cases hin : dst ≤ x ∧ x < dst + n
  · have h := @Vm.memcpy_inside m dst src n (x - dst) hd hs (by omega)
    rw [Nat.add_sub_cancel' hin.1] at h
    rw [if_pos hin, h]
  · rw [if_neg hin, Vm.memcpy_of_outside hd (by omega)]

theorem memset_eq {v n : ℕ} (c : ℤ) (hv : v + n ≤ 2 ^ 32) :
    memset m v c n = Vm.memset m v (byteOf c) n := by
  funext x
  rw [memset_apply c hv]
  by_cases hin : v ≤ x ∧ x < v + n
  · have h := @Vm.memset_inside n (byteOf c) m v (x - v) hv (by omega)
    rw [Nat.add_sub_cancel' hin.1] at h
    rw [if_pos hin, h]
  · rw [if_neg hin, Vm.memset_of_outside hv (by omega)]

end StringOps

end Mcertikos
