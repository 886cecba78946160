/-
Overwriting a part of a list.

`splice l off src` puts the elements of `src` into `l` from position `off` on, and makes the
list longer if they do not fit; `slice l off n` takes out what is there.

* `splice_append` — two pieces put in one after the other are one piece;
* `slice_splice_self`, `slice_splice_of_apart` — what is read back, and what stays.

Every statement is about positions inside the list or at its end, `off ≤ l.length`.
-/
import Mathlib.Data.List.GetD
import Mathlib.Tactic

namespace Splice

open List

variable {α : Type*} {l src src' : List α} {off n : ℕ}

def splice (l : List α) (off : ℕ) (src : List α) : List α :=
  l.take off ++ src ++ l.drop (off + src.length)

def slice (l : List α) (off n : ℕ) : List α := (l.drop off).take n

theorem length_splice (h : off ≤ l.length) :
    (splice l off src).length = max l.length (off + src.length) := by
  unfold splice
  rw [length_append, length_append, length_take, length_drop]
  omega

theorem length_slice (l : List α) (off n : ℕ) : (slice l off n).length = min n (l.length - off) := by
  unfold slice
  rw [length_take, length_drop]

theorem getElem?_slice (l : List α) (off n i : ℕ) :
    (slice l off n)[i]? = if i < n then l[off + i]? else none := by
  unfold slice
  rw [getElem?_take, getElem?_drop]

theorem getElem?_splice (h : off ≤ l.length) (i : ℕ) : (splice l off src)[i]? =
      if off ≤ i ∧ i < off + src.length then src[i - off]? else l[i]? := by
  have htake : (l.take off).length = off := length_take_of_le h
  unfold splice
  rw [append_assoc, getElem?_append, getElem?_append, htake, getElem?_take, getElem?_drop]
  by_cases h1 : i < off
  · rw [if_pos h1, if_pos h1, if_neg (by omega)]
  · rw [if_neg h1]
    by_cases h2 : i < off + src.length
    · rw [if_pos (by omega), if_pos (by omega)]
    · rw [if_neg (by omega), if_neg (by omega), show off + src.length + (i - off - src.length) = i by omega]

theorem splice_nil (h : off ≤ l.length) : splice l off [] = l := by
  refine ext_getElem? fun i => ?_
  rw [getElem?_splice h, if_neg]
  rintro ⟨h1, h2⟩
  rw [length_nil] at h2
  omega

/-- Two pieces one after the other are one piece. -/
theorem splice_append (h : off ≤ l.length) :
    splice (splice l off src) (off + src.length) src' = splice l off (src ++ src') := by
  have hlen : (splice l off src).length = max l.length (off + src.length) := length_splice h
  refine ext_getElem? fun i => ?_
  rw [getElem?_splice (by omega), getElem?_splice h, getElem?_splice h, length_append,
    getElem?_append]
  by_cases h1 : off + src.length ≤ i ∧ i < off + src.length + src'.length
  · rw [if_pos h1, if_pos ⟨by omega, by omega⟩, if_neg (by omega), Nat.sub_sub]
  · rw [if_neg h1]
    by_cases h2 : off ≤ i ∧ i < off + src.length
    · rw [if_pos h2, if_pos ⟨h2.1, by omega⟩, if_pos (by omega)]
    · rw [if_neg h2, if_neg (by omega)]

theorem slice_splice_self (src : List α) (h : off ≤ l.length) :
    slice (splice l off src) off src.length = src := by
  refine ext_getElem? fun i => ?_
  rw [getElem?_slice, getElem?_splice h]
  by_cases hi : i < src.length
  · rw [if_pos hi, if_pos ⟨by omega, by omega⟩, Nat.add_sub_cancel_left]
  · rw [if_neg hi, getElem?_eq_none (by omega)]

theorem slice_splice_of_apart (h : off ≤ l.length) {o m : ℕ}
    (ha : o + m ≤ off ∨ off + src.length ≤ o) : slice (splice l off src) o m = slice l o m := by
  refine ext_getElem? fun i => ?_
  rw [getElem?_slice, getElem?_slice]
  split_ifs with hi
  · rw [getElem?_splice h, if_neg (by omega)]
  · rfl

end Splice
