import MojoHttp.Lib.LaneScan
import MojoHttp.Lib.LittleEndian

/-!
# Eight bytes in a word

A word is its eight lanes, the lowest first. Bitwise operations work lane by lane. A subtraction does up to the
first lane that borrows, so a search that asks for the lowest lane with a property may subtract word by word.

* **`lane_sub`** — a difference, in a lane no lower lane has borrowed from.
* **`lane_load`** — the lanes of a load are the bytes it reads.
* **`countTrailingZeros_of_lane`** — the lowest set bit of a mask names the first lane that is set.
-/

namespace Swar

/-- The byte at place `k`. -/
def lane (w : UInt64) (k : Nat) : UInt8 := ⟨w.toBitVec.extractLsb' (8 * k) 8⟩

theorem toNat_lane (w : UInt64) (k : Nat) : (lane w k).toNat = w.toNat / 256 ^ k % 256 := by
  show (w.toBitVec.extractLsb' (8 * k) 8).toNat = _
  rw [BitVec.extractLsb'_toNat, Nat.shiftRight_eq_div_pow, Nat.pow_mul]
  rfl

theorem testBit_lane (w : UInt64) {k r : Nat} (hr : r < 8) :
    (lane w k).toNat.testBit r = w.toNat.testBit (8 * k + r) := by
  show (w.toBitVec.extractLsb' (8 * k) 8).getLsbD r = w.toBitVec.getLsbD (8 * k + r)
  rw [BitVec.getLsbD_extractLsb', decide_eq_true hr, Bool.true_and]

/-! ## Lane by lane -/

theorem lane_and (x y : UInt64) (k : Nat) : lane (x &&& y) k = lane x k &&& lane y k :=
  UInt8.toBitVec_inj.mp BitVec.extractLsb'_and

theorem lane_or (x y : UInt64) (k : Nat) : lane (x ||| y) k = lane x k ||| lane y k :=
  UInt8.toBitVec_inj.mp BitVec.extractLsb'_or

theorem lane_xor (x y : UInt64) (k : Nat) : lane (x ^^^ y) k = lane x k ^^^ lane y k :=
  UInt8.toBitVec_inj.mp BitVec.extractLsb'_xor

theorem lane_not (x : UInt64) {k : Nat} (hk : k < 8) : lane (~~~x) k = ~~~(lane x k) := by
  apply UInt8.toBitVec_inj.mp
  show (~~~x.toBitVec).extractLsb' (8 * k) 8 = ~~~(x.toBitVec.extractLsb' (8 * k) 8)
  apply BitVec.eq_of_getLsbD_eq
  intro i hi
  rw [BitVec.getLsbD_extractLsb', BitVec.getLsbD_not, BitVec.getLsbD_not, BitVec.getLsbD_extractLsb',
    decide_eq_true hi, decide_eq_true (show 8 * k + i < 64 by omega)]
  rfl

/-- Words whose lower lanes compare one by one compare below them. -/
theorem mod_le_mod {x y : UInt64} {k : Nat} (h : ∀ j < k, lane y j ≤ lane x j) :
    y.toNat % 256 ^ k ≤ x.toNat % 256 ^ k := by
  induction k with
  | zero => simp [Nat.mod_one]
  | succ k ih =>
    have hlow := ih fun j hj => h j (by omega)
    have hlane : y.toNat / 256 ^ k % 256 ≤ x.toNat / 256 ^ k % 256 := by
      rw [← toNat_lane, ← toNat_lane]
      exact UInt8.le_iff_toNat_le.mp (h k (by omega))
    rw [Nat.mod_pow_succ, Nat.mod_pow_succ]
    exact Nat.add_le_add hlow (Nat.mul_le_mul_left _ hlane)

/-- **A difference**, lane by lane up to the first that borrows. -/
theorem lane_sub {x y : UInt64} {k : Nat} (hk : k < 8) (h : ∀ j < k, lane y j ≤ lane x j) :
    lane (x - y) k = lane x k - lane y k := by
  have hlow := mod_le_mod h
  have hpos : 0 < 256 ^ k := Nat.pow_pos (by decide)
  -- `2 ^ 64` in lanes: the place of lane `k`, its width, and the lanes above it
  have hwidth : 2 ^ 64 = 256 ^ k * (256 * 256 ^ (7 - k)) := by
    rw [← Nat.pow_succ', ← Nat.pow_add, show k + (7 - k).succ = 8 from by omega]
    rfl
  have hy : y.toNat / 256 ^ k < 256 * 256 ^ (7 - k) := by
    rw [Nat.div_lt_iff_lt_mul hpos, Nat.mul_comm, ← hwidth]
    exact y.toNat_lt
  have hdiff : (2 ^ 64 - y.toNat + x.toNat) / 256 ^ k =
      256 * 256 ^ (7 - k) - y.toNat / 256 ^ k + x.toNat / 256 ^ k := by
    have hsplit : 2 ^ 64 - y.toNat + x.toNat = (x.toNat % 256 ^ k - y.toNat % 256 ^ k) +
        256 ^ k * (256 * 256 ^ (7 - k) - y.toNat / 256 ^ k + x.toNat / 256 ^ k) := by
      have hx := Nat.mod_add_div x.toNat (256 ^ k)
      have hy' := Nat.mod_add_div y.toNat (256 ^ k)
      have hle : y.toNat ≤ 2 ^ 64 := Nat.le_of_lt y.toNat_lt
      rw [Nat.mul_add, Nat.mul_sub, ← hwidth]
      have hyle : 256 ^ k * (y.toNat / 256 ^ k) ≤ 2 ^ 64 := by omega
      omega
    rw [hsplit, Nat.add_mul_div_left _ _ hpos, Nat.div_eq_of_lt, Nat.zero_add]
    exact Nat.lt_of_le_of_lt (Nat.sub_le _ _) (Nat.mod_lt _ hpos)
  apply UInt8.toNat_inj.mp
  rw [toNat_lane, UInt64.toNat_sub, UInt8.toNat_sub, toNat_lane, toNat_lane]
  have hmod : (2 ^ 64 - y.toNat + x.toNat) % 2 ^ 64 / 256 ^ k % 256 =
      (2 ^ 64 - y.toNat + x.toNat) / 256 ^ k % 256 := by
    rw [hwidth, Nat.mod_mul_right_div_self, Nat.mod_mul_right_mod]
  rw [hmod, hdiff]
  omega

/-! ## Loads -/

theorem value_div (bs : List UInt8) (k : Nat) :
    LittleEndian.value bs / 256 ^ k % 256 = (bs.getD k 0).toNat := by
  induction bs generalizing k with
  | nil =>
    rw [LittleEndian.value, Nat.zero_div]
    rfl
  | cons b bs ih =>
    have hb := b.toNat_lt
    cases k with
    | zero =>
      rw [LittleEndian.value, pow_zero, Nat.div_one, List.getD_cons_zero]
      omega
    | succ k =>
      rw [LittleEndian.value, pow_succ, Nat.mul_comm (256 ^ k), ← Nat.div_div_eq_div_mul, List.getD_cons_succ,
        ← ih k]
      congr 2
      omega

theorem value_lt (bs : List UInt8) : LittleEndian.value bs < 256 ^ bs.length := by
  induction bs with
  | nil => decide
  | cons b bs ih =>
    have hb := b.toNat_lt
    rw [LittleEndian.value, List.length_cons, pow_succ]
    omega

/-- The word of eight bytes, the lowest first. -/
def load (bs : List UInt8) : UInt64 := UInt64.ofNat (LittleEndian.value bs)

/-- **The lanes of a load** are the bytes it reads. -/
theorem lane_load {bs : List UInt8} (h : bs.length = 8) (k : Nat) : lane (load bs) k = bs.getD k 0 := by
  have hlt := value_lt bs
  rw [h] at hlt
  apply UInt8.toNat_inj.mp
  rw [toNat_lane, load, UInt64.toNat_ofNat_of_lt' hlt, value_div]

/-! ## The lowest set bit -/

/-- `count_trailing_zeros`. -/
def countTrailingZeros (m : UInt64) : Nat := (LaneScan.firstFrom (fun i => m.toNat.testBit i) 64 0).getD 64

theorem eq_zero_of_lanes {m : UInt64} (h : ∀ k < 8, lane m k = 0) : m = 0 := by
  apply UInt64.toNat_inj.mp
  apply Nat.eq_of_testBit_eq
  intro i
  rw [show (0 : UInt64).toNat = 0 from rfl, Nat.zero_testBit]
  by_cases hi : i < 64
  · have hbit := testBit_lane m (k := i / 8) (Nat.mod_lt i (by decide : 0 < 8))
    rw [Nat.div_add_mod, h (i / 8) (by omega)] at hbit
    rw [← hbit]
    exact Nat.zero_testBit _
  · exact Nat.testBit_lt_two_pow (Nat.lt_of_lt_of_le m.toNat_lt (Nat.pow_le_pow_right (by decide) (by omega)))

/-- **The lowest set bit** of a mask with the high bit of a lane set, behind lanes that are zero. -/
theorem countTrailingZeros_of_lane {m : UInt64} {k : Nat} (hk : k < 8) (hlow : ∀ j < k, lane m j = 0)
    (hset : lane m k = 0x80) : m ≠ 0 ∧ countTrailingZeros m = 8 * k + 7 := by
  have hbit : m.toNat.testBit (8 * k + 7) = true := by
    rw [← testBit_lane m (by decide), hset]
    decide
  have hbelow : ∀ i, i < 8 * k + 7 → m.toNat.testBit i = false := by
    intro i hi
    rw [← Nat.div_add_mod i 8, ← testBit_lane m (Nat.mod_lt i (by decide))]
    rcases Nat.lt_or_ge (i / 8) k with hlt | hge
    · rw [hlow _ hlt]
      exact Nat.zero_testBit _
    · rw [show i / 8 = k from by omega, hset]
      have hseven : ∀ r < 7, (0x80 : UInt8).toNat.testBit r = false := by decide
      exact hseven (i % 8) (by omega)
  have hfirst : LaneScan.firstFrom (fun i => m.toNat.testBit i) 64 0 = some (8 * k + 7) :=
    LaneScan.firstFrom_eq_some.mpr ⟨Nat.zero_le _, by omega, hbit, fun j _ hj => hbelow j hj⟩
  refine ⟨?_, by rw [countTrailingZeros, hfirst]; rfl⟩
  intro hzero
  rw [hzero] at hbit
  exact absurd hbit (by rw [show (0 : UInt64).toNat = 0 from rfl, Nat.zero_testBit]; decide)

end Swar
