/-
Reading back what was written: the on-disk format.

* `Block.dinode_setDinode_self`, `Block.dinode_setDinode_of_ne` — blocks of disk inodes;
* `Block.entry_setEntry_self`, `Block.entry_setEntry_of_ne` — indirect blocks;
* `Block.bit_setBit`, `Block.bit_clearBit`, `Block.freeBitFrom_some` — the bitmap;
* `Block.splice_of_inside`, `Block.splice_of_outside` — data blocks.
-/
import Mcertikos.Fs.Layout

namespace Mcertikos

open Fs

namespace Fs

namespace Dinode

/-- The fields have as many bits as `struct dinode` gives them. -/
structure Fits (d : Dinode) : Prop where
  type : d.type < 2 ^ 16
  major : d.major < 2 ^ 16
  minor : d.minor < 2 ^ 16
  nlink : d.nlink < 2 ^ 16
  size : d.size < 2 ^ 32
  addrs : ∀ j, d.addrs j < 2 ^ 32

theorem addr_of_lt (d : Dinode) {i : ℕ} (hi : i < 13) : d.addr i = d.addrs ⟨i, hi⟩ := dif_pos hi

theorem addr_setAddr_self (d : Dinode) {i v : ℕ} (hi : i < 13) : (d.setAddr i v).addr i = v := by
  rw [addr_of_lt _ hi]
  exact if_pos rfl

theorem addr_setAddr_of_ne (d : Dinode) {i j v : ℕ} (h : j ≠ i) : (d.setAddr i v).addr j = d.addr j := by
  unfold addr
  split
  · exact if_neg h
  · rfl

theorem Fits.setAddr {d : Dinode} (hd : d.Fits) (i : ℕ) {v : ℕ} (hv : v < 2 ^ 32) :
    (d.setAddr i v).Fits := by
  refine ⟨hd.type, hd.major, hd.minor, hd.nlink, hd.size, fun j => ?_⟩
  show (if j.val = i then v else d.addrs j) < 2 ^ 32
  split
  · exact hv
  · exact hd.addrs j

theorem fits_zero : zero.Fits := by
  have h : ∀ w, 0 < 2 ^ w := fun w => Nat.two_pow_pos w
  exact ⟨h 16, h 16, h 16, h 16, h 32, fun _ => h 32⟩

theorem leByte_toNat (v k : ℕ) : (leByte v k).toNat = v / 256 ^ k % 256 := UInt8.toNat_ofNat'

end Dinode

end Fs

namespace Block

theorem ofMem_apply (m : Memory.Mem) {x : ℕ} (hx : x < bsize) : (ofMem m).1 x = m x := if_pos hx

/-- A memory that changes a block only inside. -/
theorem ofMem_of_eq {b : Block} {m : Memory.Mem} {x : ℕ} (h : m x = b.1 x) : (ofMem m).1 x = b.1 x := by
  by_cases hx : x < bsize
  · rw [ofMem_apply _ hx, h]
  · rw [(ofMem m).2 x (by omega), b.2 x (by omega)]

theorem zeroed_apply (x : ℕ) : zeroed.1 x = 0 := by
  by_cases hx : x < bsize
  · exact ofMem_apply _ hx
  · exact zeroed.2 x (by omega)

theorem entry_zeroed (j : ℕ) : zeroed.entry j = 0 := by
  show Memory.read32 zeroed.1 (4 * j) = 0
  unfold Memory.read32
  simp only [zeroed_apply]
  rfl

/-! ### Disk inodes -/

section Dinodes

variable {b : Block} {i j : ℕ} {d : Dinode}

theorem dinode_zeroed (i : ℕ) : zeroed.dinode i = Dinode.zero := by
  have h16 : ∀ a, zeroed.read16 a = 0 := fun a => by
    show Memory.read16 zeroed.1 a = 0
    unfold Memory.read16
    simp only [zeroed_apply]
    rfl
  have h32 : ∀ a, zeroed.read32 a = 0 := fun a => by
    show Memory.read32 zeroed.1 a = 0
    unfold Memory.read32
    simp only [zeroed_apply]
    rfl
  unfold dinode Dinode.zero
  simp only [h16, h32]

theorem setDinode_of_inside (hi : i < ipb) {x : ℕ} (hx : x < 64) :
    (b.setDinode i d).1 (64 * i + x) = d.byte x := by
  have hlt : 64 * i + x < bsize := by
    unfold ipb at hi
    unfold bsize
    omega
  unfold setDinode
  rw [ofMem_apply _ hlt, if_pos ⟨by omega, by omega⟩, Nat.add_sub_cancel_left]

theorem setDinode_of_outside {x : ℕ} (hx : x < 64 * i ∨ 64 * i + 64 ≤ x) :
    (b.setDinode i d).1 x = b.1 x := ofMem_of_eq (if_neg (by omega))

/-- Two bytes of the structure that are one of its fields. -/
theorem read16_setDinode (hi : i < ipb) {o v : ℕ} (ho : o + 2 ≤ 64) (hv : v < 2 ^ 16)
    (h0 : d.byte o = Dinode.leByte v 0) (h1 : d.byte (o + 1) = Dinode.leByte v 1) :
    (b.setDinode i d).read16 (64 * i + o) = v := by
  show Memory.read16 (b.setDinode i d).1 _ = v
  unfold Memory.read16
  rw [Nat.add_assoc, setDinode_of_inside hi (by omega), setDinode_of_inside hi (by omega), h0, h1,
    Dinode.leByte_toNat, Dinode.leByte_toNat]
  omega

theorem read32_setDinode (hi : i < ipb) {o v : ℕ} (ho : o + 4 ≤ 64) (hv : v < 2 ^ 32)
    (h : ∀ k < 4, d.byte (o + k) = Dinode.leByte v k) :
    (b.setDinode i d).read32 (64 * i + o) = v := by
  have hbyte : ∀ k < 4, (b.setDinode i d).1 (64 * i + o + k) = Dinode.leByte v k := fun k hk => by
    rw [Nat.add_assoc, setDinode_of_inside hi (by omega), h k hk]
  show Memory.read32 (b.setDinode i d).1 _ = v
  unfold Memory.read32
  rw [hbyte 1 (by omega), hbyte 2 (by omega), hbyte 3 (by omega)]
  rw [show (b.setDinode i d).1 (64 * i + o) = Dinode.leByte v 0 from hbyte 0 (by omega)]
  simp only [Dinode.leByte_toNat]
  omega

theorem byte_addr {k : ℕ} (j : Fin 13) (hk : k < 4) :
    d.byte (12 + 4 * j.val + k) = Dinode.leByte (d.addrs j) k := by
  have hj := j.isLt
  unfold Dinode.byte
  rw [if_neg (by omega), if_neg (by omega), if_neg (by omega), if_neg (by omega), if_neg (by omega),
    show (12 + 4 * j.val + k - 12) / 4 = j.val by omega, show (12 + 4 * j.val + k) % 4 = k by omega,
    Dinode.addr_of_lt _ hj]

theorem dinode_setDinode_self (hi : i < ipb) (hd : d.Fits) : (b.setDinode i d).dinode i = d := by
  refine Dinode.ext ?_ ?_ ?_ ?_ ?_ (funext fun j => ?_)
  · exact read16_setDinode (o := 0) hi (by omega) hd.type rfl rfl
  · exact read16_setDinode hi (by omega) hd.major rfl rfl
  · exact read16_setDinode hi (by omega) hd.minor rfl rfl
  · exact read16_setDinode hi (by omega) hd.nlink rfl rfl
  · refine read32_setDinode hi (by omega) hd.size fun k hk => ?_
    unfold Dinode.byte
    rw [if_neg (by omega), if_neg (by omega), if_neg (by omega), if_neg (by omega), if_pos (by omega),
      Nat.add_sub_cancel_left]
  · have hj := j.isLt
    show (b.setDinode i d).read32 (64 * i + 12 + 4 * j.val) = d.addrs j
    rw [Nat.add_assoc]
    exact read32_setDinode hi (by omega) (hd.addrs j) fun k hk => byte_addr j hk

/-- An inode lies in 64 bytes. -/
theorem dinode_congr {c : Block} (h : ∀ x, 64 * i ≤ x → x < 64 * i + 64 → c.1 x = b.1 x) :
    c.dinode i = b.dinode i := by
  have h16 : ∀ o, o + 2 ≤ 64 → c.read16 (64 * i + o) = b.read16 (64 * i + o) := fun o ho =>
    Memory.read16_congr fun x h1 h2 => h x (by omega) (by omega)
  have h32 : ∀ o, o + 4 ≤ 64 → c.read32 (64 * i + o) = b.read32 (64 * i + o) := fun o ho =>
    Memory.read32_congr fun x h1 h2 => h x (by omega) (by omega)
  refine Dinode.ext (h16 0 (by omega)) (h16 2 (by omega)) (h16 4 (by omega)) (h16 6 (by omega))
    (h32 8 (by omega)) (funext fun j => ?_)
  have hj := j.isLt
  show c.read32 (64 * i + 12 + 4 * j.val) = b.read32 (64 * i + 12 + 4 * j.val)
  rw [Nat.add_assoc]
  exact h32 _ (by omega)

theorem dinode_setDinode_of_ne (hij : j ≠ i) : (b.setDinode i d).dinode j = b.dinode j :=
  dinode_congr fun x h1 h2 => setDinode_of_outside (by omega)

end Dinodes

/-! ### Indirect blocks -/

theorem entry_setEntry_self (b : Block) {j v : ℕ} (hj : j < nindirect) (hv : v < 2 ^ 32) :
    (b.setEntry j v).entry j = v :=
  read32_write32_same hv (by unfold nindirect at hj; unfold bsize; omega)

theorem entry_setEntry_of_ne (b : Block) {i j v : ℕ} (hij : j ≠ i) :
    (b.setEntry i v).entry j = b.entry j := read32_write32_of_disjoint (by omega)

/-! ### The bitmap -/

section Bits

variable {b : Block} {bi bj : ℕ}

theorem toBitVec_mask (bi : ℕ) : (mask bi).toBitVec = BitVec.twoPow 8 (bi % 8) := by
  have h : bi % 8 < 8 := Nat.mod_lt _ (by decide)
  unfold mask
  generalize bi % 8 = k at h
  revert k
  decide

theorem bit_eq (b : Block) (bi : ℕ) : b.bit bi = (b.1 (bi / 8)).toBitVec.getLsbD (bi % 8) := by
  have hk : bi % 8 < 8 := Nat.mod_lt _ (by decide)
  have hmask : b.1 (bi / 8) &&& mask bi ≠ 0 ↔
      (b.1 (bi / 8)).toBitVec &&& BitVec.twoPow 8 (bi % 8) ≠ 0 := by
    rw [← toBitVec_mask, ← UInt8.toBitVec_and, ne_eq, ne_eq, ← UInt8.toBitVec_inj]
    rfl
  unfold bit
  rw [BitVec.and_twoPow] at hmask
  cases h : (b.1 (bi / 8)).toBitVec.getLsbD (bi % 8) with
  | true =>
    rw [h, if_pos rfl] at hmask
    refine decide_eq_true (hmask.mpr fun h0 => ?_)
    have := congrArg (fun v => v.getLsbD (bi % 8)) h0
    simp [hk] at this
  | false =>
    rw [h, if_neg (by decide)] at hmask
    exact decide_eq_false fun hne => hmask.mp hne rfl

theorem getLsbD_twoPow_mod (hq : bj / 8 = bi / 8) :
    (BitVec.twoPow 8 (bi % 8)).getLsbD (bj % 8) = decide (bj = bi) := by
  rw [BitVec.getLsbD_twoPow, decide_eq_true (Nat.mod_lt bi (by decide)), Bool.true_and]
  exact decide_eq_decide.mpr (by omega)

theorem bit_setBit (hi : bi < bpb) : (b.setBit bi).bit bj = (b.bit bj || decide (bj = bi)) := by
  have hlt : bi / 8 < bsize := by
    unfold bpb at hi
    unfold bsize
    omega
  rw [bit_eq, bit_eq]
  by_cases hq : bj / 8 = bi / 8
  · have hbyte : (b.setBit bi).1 (bj / 8) = b.1 (bj / 8) ||| mask bi := by
      unfold setBit
      rw [hq, ofMem_apply _ hlt, if_pos rfl]
    rw [hbyte, UInt8.toBitVec_or, toBitVec_mask, BitVec.getLsbD_or, getLsbD_twoPow_mod hq]
  · have hbyte : (b.setBit bi).1 (bj / 8) = b.1 (bj / 8) := ofMem_of_eq (if_neg hq)
    have hne : bj ≠ bi := fun he => hq (by rw [he])
    rw [hbyte, decide_eq_false hne, Bool.or_false]

theorem freeBitFrom_some {data : Block} {b size k bi i : ℕ}
    (h : data.freeBitFrom b size k bi = some i) :
    bi ≤ i ∧ i < bi + k ∧ b + i < size ∧ data.bit i = false ∧
      ∀ j, bi ≤ j → j < i → data.bit j = true := by
  induction k generalizing bi with
  | zero => cases h
  | succ k ih =>
    unfold freeBitFrom at h
    split_ifs at h with hlt hbit
    · cases h
      exact ⟨le_refl _, by omega, hlt, hbit, fun j h1 h2 => absurd h1 (by omega)⟩
    · obtain ⟨h1, h2, h3, h4, h5⟩ := ih h
      refine ⟨by omega, by omega, h3, h4, fun j hj hji => ?_⟩
      rcases Nat.eq_or_lt_of_le hj with rfl | hj
      · simpa using hbit
      · exact h5 j hj hji

theorem freeBitFrom_none {data : Block} {b size k bi : ℕ}
    (h : data.freeBitFrom b size k bi = none) {j : ℕ} (hj : bi ≤ j) (hjk : j < bi + k)
    (hsize : b + j < size) : data.bit j = true := by
  induction k generalizing bi with
  | zero => omega
  | succ k ih =>
    unfold freeBitFrom at h
    split_ifs at h with hlt hbit
    · rcases Nat.eq_or_lt_of_le hj with rfl | hj
      · simpa using hbit
      · exact ih h hj (by omega)
    · omega

end Bits

/-! ### Data blocks -/

theorem splice_of_inside (b : Block) {off : ℕ} {src : Bytes} {x : ℕ} (h1 : off ≤ x)
    (h2 : x < off + src.length) (h3 : x < bsize) :
    (b.splice off src).1 x = src.getD (x - off) 0 := by
  unfold splice
  rw [ofMem_apply _ h3, if_pos ⟨h1, h2⟩]

theorem splice_of_outside (b : Block) {off : ℕ} {src : Bytes} {x : ℕ}
    (h : x < off ∨ off + src.length ≤ x) : (b.splice off src).1 x = b.1 x :=
  ofMem_of_eq (if_neg (by omega))

end Block

end Mcertikos
