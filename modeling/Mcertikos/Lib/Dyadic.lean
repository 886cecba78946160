/-
Dyadic blocks and tilings of an initial segment.

The block `(i, k)` is the range of `2 ^ k` numbers from `i` on; it is aligned if
`2 ^ k` divides `i`.  The buddy of an aligned block is the other half of the aligned
block of order `k + 1` around it, and starts at `i ^^^ 2 ^ k`.

* `buddy_cases` — which half a block is;
* `Tiling.split`, `Tiling.merge`, `Tiling.grow` — the changes of a tiling;
* `Tiling.buddy_start` — in a tiling of whole blocks the buddy of a block is again the
  start of a block, of at most its order;
* `Tiling.exists_block` — a range without two buddies lies in one block.
-/
import Mathlib.Data.Nat.Bitwise
import Mathlib.Data.List.Perm.Basic
import Mathlib.Tactic

namespace DyadicBlocks

open List

/-- Start and order. -/
abbrev Block := ℕ × ℕ

/-- The number `x` lies in the block. -/
def Covers (b : Block) (x : ℕ) : Prop := b.1 ≤ x ∧ x < b.1 + 2 ^ b.2

instance (b : Block) (x : ℕ) : Decidable (Covers b x) := by
  unfold Covers
  infer_instance

/-- No number lies in both blocks. -/
def Apart (b c : Block) : Prop := ∀ x, Covers b x → ¬ Covers c x

variable {b c : Block} {i k x : ℕ}

theorem Apart.symm (h : Apart b c) : Apart c b := fun x hc hb => h x hb hc

theorem covers_start (b : Block) : Covers b b.1 := ⟨le_refl _, Nat.lt_add_of_pos_right (by positivity)⟩

/-- The two halves of a block. -/
theorem covers_halves (i k x : ℕ) :
    Covers (i, k + 1) x ↔ Covers (i, k) x ∨ Covers (i + 2 ^ k, k) x := by
  unfold Covers
  rw [pow_succ]
  dsimp only
  omega

theorem apart_halves (i k : ℕ) : Apart (i, k) (i + 2 ^ k, k) := by
  intro x h h'
  unfold Covers at h h'
  dsimp only at h h'
  omega

/-! ### Buddies -/

theorem dvd_of_dvd_buddy (h : 2 ^ k ∣ i ^^^ 2 ^ k) : 2 ^ k ∣ i := by
  have hmod : (i ^^^ 2 ^ k) % 2 ^ k = i % 2 ^ k := by
    rw [Nat.xor_mod_two_pow, Nat.mod_self, Nat.xor_zero]
  rw [Nat.dvd_iff_mod_eq_zero, hmod] at h
  exact Nat.dvd_of_mod_eq_zero h

/-- **An aligned block is the lower or the upper half** of the block of the next order. -/
theorem buddy_cases (h : 2 ^ k ∣ i) :
    2 ^ (k + 1) ∣ i ∧ i ^^^ 2 ^ k = i + 2 ^ k ∨
      2 ^ (k + 1) ∣ i ^^^ 2 ^ k ∧ i = (i ^^^ 2 ^ k) + 2 ^ k := by
  obtain ⟨a, rfl⟩ := h
  have hxor : 2 ^ k * a ^^^ 2 ^ k = 2 ^ k * (a ^^^ 1) := by
    have hs := @Nat.shiftLeft_xor_distrib k a 1
    rw [Nat.shiftLeft_eq, Nat.shiftLeft_eq, Nat.shiftLeft_eq, one_mul] at hs
    rw [mul_comm, ← hs, mul_comm]
  rw [hxor, pow_succ]
  rcases Nat.even_or_odd a with ha | ha
  · obtain ⟨c, rfl⟩ := ha.two_dvd
    refine .inl ⟨⟨c, by ring⟩, ?_⟩
    rw [Nat.xor_one_of_even ha]
    ring
  · rw [Nat.xor_one_of_odd ha]
    obtain ⟨c, rfl⟩ := ha
    refine .inr ⟨⟨c, by rw [Nat.add_sub_cancel]; ring⟩, ?_⟩
    rw [Nat.add_sub_cancel]
    ring

/-- A multiple of the whole is no upper half. -/
theorem not_dvd_add (h : 2 ^ (k + 1) ∣ i) : ¬ 2 ^ (k + 1) ∣ i + 2 ^ k := by
  intro hd
  have hself : 2 ^ (k + 1) ∣ 2 ^ k := (Nat.dvd_add_right h).mp hd
  exact absurd (Nat.le_of_dvd (by positivity) hself)
    (Nat.not_le.mpr (Nat.pow_lt_pow_right (by norm_num) (Nat.lt_succ_self k)))

theorem buddy_of_dvd (h : 2 ^ (k + 1) ∣ i) : i ^^^ 2 ^ k = i + 2 ^ k := by
  rcases buddy_cases ((pow_dvd_pow 2 (Nat.le_succ k)).trans h) with ⟨-, he⟩ | ⟨hd, he⟩
  · exact he
  · rw [he] at h
    exact absurd h (not_dvd_add hd)

theorem buddy_buddy (i k : ℕ) : (i ^^^ 2 ^ k) ^^^ 2 ^ k = i := by
  rw [Nat.xor_assoc, Nat.xor_self, Nat.xor_zero]

theorem buddy_ne (i k : ℕ) : i ^^^ 2 ^ k ≠ i := by
  intro h
  have hx := congrArg (i ^^^ ·) h
  simp at hx

/-- Aligned blocks that overlap are nested. -/
theorem covers_of_overlap (hb : 2 ^ b.2 ∣ b.1) (hc : 2 ^ c.2 ∣ c.1)
    (hle : c.2 ≤ b.2) (hxb : Covers b x) (hxc : Covers c x) :
    ∀ y, Covers c y → Covers b y := by
  obtain ⟨i, k⟩ := b
  obtain ⟨j, l⟩ := c
  dsimp only at hb hc hle
  obtain ⟨m, rfl⟩ := Nat.exists_eq_add_of_le hle
  obtain ⟨a, rfl⟩ := hb
  obtain ⟨d, rfl⟩ := hc
  unfold Covers at hxb hxc ⊢
  dsimp only at hxb hxc ⊢
  rw [pow_add] at hxb ⊢
  -- the smaller block is a multiple of its own size away from the larger one
  have hlow : 2 ^ m * a ≤ d := by
    by_contra hlt
    have hmul := Nat.mul_le_mul_left (2 ^ l) (by omega : d + 1 ≤ 2 ^ m * a)
    rw [mul_add, mul_one, ← mul_assoc] at hmul
    omega
  have hhigh : d + 1 ≤ 2 ^ m * a + 2 ^ m := by
    by_contra hlt
    have hmul := Nat.mul_le_mul_left (2 ^ l) (by omega : 2 ^ m * a + 2 ^ m ≤ d)
    rw [mul_add, ← mul_assoc] at hmul
    omega
  intro y hy
  have h1 := Nat.mul_le_mul_left (2 ^ l) hlow
  have h2 := Nat.mul_le_mul_left (2 ^ l) hhigh
  rw [mul_add, mul_one, mul_add, ← mul_assoc] at h2
  rw [← mul_assoc] at h1
  omega

/-- The aligned block of order `k` around `x`. -/
def around (x k : ℕ) : Block := (x / 2 ^ k * 2 ^ k, k)

theorem covers_around (x k : ℕ) : Covers (around x k) x := by
  have hpos : 0 < 2 ^ k := by positivity
  refine ⟨Nat.div_mul_le_self x _, ?_⟩
  have := Nat.lt_div_mul_add (a := x) hpos
  exact this

theorem around_dvd (x k : ℕ) : 2 ^ k ∣ (around x k).1 := Dvd.intro_left _ rfl

/-- There is no other aligned block of this order around `x`. -/
theorem eq_around (hi : 2 ^ k ∣ i) (hx : Covers (i, k) x) : around x k = (i, k) := by
  obtain ⟨a, rfl⟩ := hi
  have hdiv : x / 2 ^ k = a := by
    refine Nat.div_eq_of_lt_le ?_ ?_
    · rw [mul_comm]
      exact hx.1
    · have h2 := hx.2
      dsimp only at h2
      rw [mul_comm, Nat.mul_succ]
      exact h2
  unfold around
  rw [hdiv, mul_comm]

/-- The block around a number below a multiple of its size. -/
theorem around_room {top : ℕ} (htop : 2 ^ k ∣ top) (hx : x < top) :
    (around x k).1 + 2 ^ k ≤ top := by
  obtain ⟨a, ha⟩ := around_dvd x k
  obtain ⟨c, rfl⟩ := htop
  have hle : (around x k).1 ≤ x := (covers_around x k).1
  rw [ha] at hle ⊢
  rw [← Nat.mul_succ]
  exact Nat.mul_le_mul_left _ (Nat.lt_of_mul_lt_mul_left (hle.trans_lt hx))

/-- A block and its buddy make up the block of the next order around both. -/
theorem covers_buddies {y : ℕ} (hi : 2 ^ k ∣ i) (hx : Covers (i, k) x)
    (hy : Covers (around x (k + 1)) y) : Covers (i, k) y ∨ Covers (i ^^^ 2 ^ k, k) y := by
  rcases buddy_cases hi with ⟨hd, he⟩ | ⟨hd, he⟩
  · rw [eq_around hd ((covers_halves i k x).mpr (.inl hx))] at hy
    rw [he]
    exact (covers_halves i k y).mp hy
  · have hx' : Covers (i ^^^ 2 ^ k, k + 1) x := by
      refine (covers_halves _ k x).mpr (.inr ?_)
      rw [← he]
      exact hx
    rw [eq_around hd hx'] at hy
    rcases (covers_halves _ k y).mp hy with hy | hy
    · exact .inr hy
    · rw [← he] at hy
      exact .inl hy

/-! ### Tilings -/

/-- The blocks of `l` are aligned and cover every number below `top` once. -/
structure Tiling (l : List Block) (top : ℕ) : Prop where
  aligned : ∀ b ∈ l, 2 ^ b.2 ∣ b.1
  apart : l.Pairwise Apart
  cover : ∀ x, x < top ↔ ∃ b ∈ l, Covers b x

variable {l l' : List Block} {top i k : ℕ}

theorem tiling_nil : Tiling [] 0 where
  aligned := nofun
  apart := .nil
  cover := fun _ => ⟨nofun, fun ⟨_, h, _⟩ => nomatch h⟩

theorem Tiling.perm (h : Tiling l top) (hp : l.Perm l') : Tiling l' top where
  aligned := fun b hb => h.aligned b (hp.mem_iff.mpr hb)
  apart := h.apart.perm hp Apart.symm
  cover := fun x => (h.cover x).trans
    ⟨fun ⟨b, hb, hx⟩ => ⟨b, hp.mem_iff.mp hb, hx⟩, fun ⟨b, hb, hx⟩ => ⟨b, hp.mem_iff.mpr hb, hx⟩⟩

/-- Two blocks of a tiling that overlap are the same. -/
theorem Tiling.eq_of_overlap (h : Tiling l top) (hb : b ∈ l) (hc : c ∈ l)
    (hxb : Covers b x) (hxc : Covers c x) : b = c := by
  by_contra hne
  have hsymm : Std.Symm Apart := ⟨fun _ _ => Apart.symm⟩
  exact h.apart.forall hb hc hne x hxb hxc

theorem Tiling.nodup (h : Tiling l top) : l.Nodup :=
  h.apart.imp fun {b c} hbc (he : b = c) => hbc b.1 (covers_start b) (he ▸ covers_start b)

/-- **Splitting a block into its halves.** -/
theorem Tiling.split (h : Tiling ((i, k + 1) :: l) top) :
    Tiling ((i, k) :: (i + 2 ^ k, k) :: l) top := by
  obtain ⟨hapart, hrest⟩ := pairwise_cons.mp h.apart
  have hdvd : 2 ^ (k + 1) ∣ i := h.aligned (i, k + 1) (by simp)
  have hdvd' : 2 ^ k ∣ i := (pow_dvd_pow 2 (Nat.le_succ k)).trans hdvd
  constructor
  · intro b hb
    simp only [mem_cons] at hb
    rcases hb with rfl | rfl | hb
    · exact hdvd'
    · exact (Nat.dvd_add_right hdvd').mpr (dvd_refl _)
    · exact h.aligned b (by simp [hb])
  · refine pairwise_cons.mpr ⟨?_, pairwise_cons.mpr ⟨?_, hrest⟩⟩
    · intro c hc
      rcases mem_cons.mp hc with rfl | hc
      · exact apart_halves i k
      · exact fun x hx => hapart c hc x ((covers_halves i k x).mpr (.inl hx))
    · exact fun c hc x hx => hapart c hc x ((covers_halves i k x).mpr (.inr hx))
  · intro x
    rw [h.cover x]
    simp only [mem_cons, exists_eq_or_imp, covers_halves, or_assoc]

/-- **Merging the two halves of a block.** -/
theorem Tiling.merge (h : Tiling ((i, k) :: (i + 2 ^ k, k) :: l) top) (hdvd : 2 ^ (k + 1) ∣ i) :
    Tiling ((i, k + 1) :: l) top := by
  obtain ⟨hlow, hrest⟩ := pairwise_cons.mp h.apart
  obtain ⟨hhigh, hrest⟩ := pairwise_cons.mp hrest
  constructor
  · intro b hb
    rcases mem_cons.mp hb with rfl | hb
    · exact hdvd
    · exact h.aligned b (by simp [hb])
  · refine pairwise_cons.mpr ⟨fun c hc x hx => ?_, hrest⟩
    rcases (covers_halves i k x).mp hx with hx | hx
    · exact hlow c (by simp [hc]) x hx
    · exact hhigh c hc x hx
  · intro x
    rw [h.cover x]
    simp only [mem_cons, exists_eq_or_imp, covers_halves, or_assoc]

/-- **Adding a block at the end.** -/
theorem Tiling.grow (h : Tiling l top) (hdvd : 2 ^ k ∣ top) :
    Tiling ((top, k) :: l) (top + 2 ^ k) := by
  constructor
  · intro b hb
    rcases mem_cons.mp hb with rfl | hb
    · exact hdvd
    · exact h.aligned b hb
  · refine pairwise_cons.mpr ⟨fun c hc x hx hx' => ?_, h.apart⟩
    have := (h.cover x).mpr ⟨c, hc, hx'⟩
    exact absurd hx.1 (Nat.not_le.mpr this)
  · intro x
    simp only [mem_cons, exists_eq_or_imp]
    rw [← h.cover x]
    unfold Covers
    dsimp only
    omega

/-- **The buddy of a block is the start of a block**, of at most its order: a larger
one would contain the block itself. -/
theorem Tiling.buddy_start (h : Tiling l top) (htop : 2 ^ (k + 1) ∣ top) (hb : (i, k) ∈ l) :
    ∃ j, j ≤ k ∧ (i ^^^ 2 ^ k, j) ∈ l := by
  have hdvd : 2 ^ k ∣ i := h.aligned (i, k) hb
  have hin : i < top := (h.cover i).mpr ⟨_, hb, covers_start (i, k)⟩
  -- the parent block lies below `top`
  have hparent : ∃ p, 2 ^ (k + 1) ∣ p ∧ p + 2 ^ (k + 1) ≤ top ∧ Covers (p, k + 1) i ∧
      Covers (p, k + 1) (i ^^^ 2 ^ k) := by
    have hroom : ∀ p, 2 ^ (k + 1) ∣ p → p < top → p + 2 ^ (k + 1) ≤ top := by
      rintro p ⟨a, rfl⟩ hlt
      obtain ⟨c, rfl⟩ := htop
      rw [← Nat.mul_succ]
      exact Nat.mul_le_mul_left _ (Nat.lt_of_mul_lt_mul_left hlt)
    rcases buddy_cases hdvd with ⟨hd, he⟩ | ⟨hd, he⟩
    · refine ⟨i, hd, hroom i hd hin, covers_start (i, k + 1), ?_⟩
      rw [he]
      exact (covers_halves i k _).mpr (.inr (covers_start (i + 2 ^ k, k)))
    · refine ⟨i ^^^ 2 ^ k, hd, hroom _ hd (by omega), ?_, covers_start (i ^^^ 2 ^ k, k + 1)⟩
      refine (covers_halves _ k i).mpr (.inr ?_)
      rw [← he]
      exact covers_start (i, k)
  obtain ⟨p, hp, hptop, hpi, hpb⟩ := hparent
  have hq : i ^^^ 2 ^ k < top := by
    have := hpb.2
    dsimp only at this
    omega
  obtain ⟨⟨c, j⟩, hc, hcq⟩ := (h.cover _).mp hq
  have hcal : 2 ^ j ∣ c := h.aligned (c, j) hc
  have hqal : 2 ^ k ∣ i ^^^ 2 ^ k := by
    rcases buddy_cases hdvd with ⟨hd, he⟩ | ⟨hd, he⟩
    · rw [he]
      exact (Nat.dvd_add_right hdvd).mpr (dvd_refl _)
    · exact (pow_dvd_pow 2 (Nat.le_succ k)).trans hd
  have hjk : j ≤ k := by
    by_contra hlt
    -- it contains the parent, and so the block
    have hsub := covers_of_overlap (b := (c, j)) (c := (p, k + 1)) hcal hp (by dsimp only; omega)
      hcq hpb
    have heq := h.eq_of_overlap hb hc (covers_start (i, k)) (hsub i hpi)
    have := congrArg Prod.snd heq
    dsimp only at this
    omega
  refine ⟨j, hjk, ?_⟩
  -- an aligned number inside a block of at most its order is its start
  have hstart : c = i ^^^ 2 ^ k := by
    have hsub := covers_of_overlap (b := (i ^^^ 2 ^ k, k)) (c := (c, j)) hqal hcal hjk
      (covers_start (i ^^^ 2 ^ k, k)) hcq
    have hle := (hsub c (covers_start (c, j))).1
    have hge := hcq.1
    dsimp only at hle hge
    omega
  rw [← hstart]
  exact hc

/-- **A range without two buddies lies in one block**: if all blocks in an aligned range have a
property that no two buddies of an order below `m` have, then the range is inside of one of
them. -/
theorem Tiling.exists_block (h : Tiling l top) {F : Block → Prop} {m : ℕ}
    (hF : ∀ i j, j < m → F (i, j) → ¬ F (i ^^^ 2 ^ j, j)) (k : ℕ) :
    k ≤ m → ∀ q, 2 ^ k ∣ q → q + 2 ^ k ≤ top →
      (∀ b ∈ l, ∀ x, Covers (q, k) x → Covers b x → F b) → ∃ b ∈ l, k ≤ b.2 ∧ Covers b q := by
  induction k with
  | zero =>
    intro _ q _ hq _
    obtain ⟨b, hb, hx⟩ := (h.cover q).mp (by omega)
    exact ⟨b, hb, Nat.zero_le _, hx⟩
  | succ k ih =>
    intro hk q hdvd hq hall
    have hdvd' : 2 ^ k ∣ q := (pow_dvd_pow 2 (Nat.le_succ k)).trans hdvd
    have hup : 2 ^ k ∣ q + 2 ^ k := (Nat.dvd_add_right hdvd').mpr (dvd_refl _)
    have hlow : ∀ x, Covers (q, k) x → Covers (q, k + 1) x := fun x hx =>
      (covers_halves q k x).mpr (.inl hx)
    have hhigh : ∀ x, Covers (q + 2 ^ k, k) x → Covers (q, k + 1) x := fun x hx =>
      (covers_halves q k x).mpr (.inr hx)
    rw [pow_succ] at hq
    obtain ⟨b1, hb1, hk1, hx1⟩ := ih (by omega) q hdvd' (by omega)
      fun b hb x hx => hall b hb x (hlow x hx)
    obtain ⟨b2, hb2, hk2, hx2⟩ := ih (by omega) (q + 2 ^ k) hup (by omega)
      fun b hb x hx => hall b hb x (hhigh x hx)
    by_cases hge1 : k + 1 ≤ b1.2
    · exact ⟨b1, hb1, hge1, hx1⟩
    by_cases hge2 : k + 1 ≤ b2.2
    · -- the block of the upper half contains the lower half
      have hsub := covers_of_overlap (c := (q, k + 1)) (h.aligned b2 hb2) hdvd hge2 hx2
        (hhigh _ (covers_start (q + 2 ^ k, k)))
      exact ⟨b2, hb2, hge2, hsub q (covers_start (q, k + 1))⟩
    -- two blocks of order `k`, which are buddies
    obtain ⟨i1, j1⟩ := b1
    obtain ⟨i2, j2⟩ := b2
    obtain rfl : j1 = k := by dsimp only at hge1 hk1; omega
    obtain rfl : j2 = j1 := by dsimp only at hge2 hk2; omega
    have he1 := (eq_around (h.aligned _ hb1) hx1).symm.trans
      (eq_around hdvd' (covers_start (q, j2)))
    have he2 := (eq_around (h.aligned _ hb2) hx2).symm.trans
      (eq_around hup (covers_start (q + 2 ^ j2, j2)))
    have hf1 := hall _ hb1 q (hlow q (covers_start (q, j2))) hx1
    have hf2 := hall _ hb2 _ (hhigh _ (covers_start (q + 2 ^ j2, j2))) hx2
    rw [he1] at hf1
    rw [he2, ← buddy_of_dvd hdvd] at hf2
    exact absurd hf2 (hF q j2 (by omega) hf1)

end DyadicBlocks
