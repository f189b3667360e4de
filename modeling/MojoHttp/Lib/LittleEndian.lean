import Mathlib.Data.List.Basic
import Mathlib.Data.List.GetD
import Mathlib.Data.Nat.Bitwise
import Mathlib.Tactic.Ring

/-!
# Numbers written lowest byte first

* **`LittleEndian.value_bytes`** — a number that fits its width reads back.
* **`LittleEndian.foldl_shift`** — so it does byte by byte, each shifted to its place.
* **`LittleEndian.signed_pattern`**, **`LittleEndian.pattern_signed`** — two's complement, both ways.
-/

namespace LittleEndian

/-- The `width` lowest bytes of a number, the lowest first. -/
def bytes : (width : Nat) → Nat → List UInt8
  | 0, _ => []
  | width + 1, n => UInt8.ofNat (n % 256) :: bytes width (n / 256)

def value : List UInt8 → Nat
  | [] => 0
  | b :: bs => b.toNat + 256 * value bs

@[simp] theorem length_bytes (width n : Nat) : (bytes width n).length = width := by
  induction width generalizing n with
  | zero => rfl
  | succ width ih => rw [bytes, List.length_cons, ih]

/-- **A number that fits reads back.** -/
theorem value_bytes {width n : Nat} (hfits : n < 256 ^ width) : value (bytes width n) = n := by
  induction width generalizing n with
  | zero =>
    rw [pow_zero, Nat.lt_one_iff] at hfits
    rw [hfits]
    rfl
  | succ width ih =>
    have hrest : n / 256 < 256 ^ width := by
      rw [Nat.div_lt_iff_lt_mul (by decide)]
      rwa [pow_succ] at hfits
    have hbyte : (UInt8.ofNat (n % 256)).toNat = n % 256 := by
      rw [UInt8.toNat_ofNat']
      exact Nat.mod_eq_of_lt (Nat.mod_lt _ (by decide))
    rw [bytes, value, ih hrest, hbyte]
    exact Nat.mod_add_div n 256

/-- Only the lowest bytes of a number are written. -/
theorem bytes_mod (width n : Nat) : bytes width (n % 256 ^ width) = bytes width n := by
  induction width generalizing n with
  | zero => rfl
  | succ width ih =>
    have hlow : n % 256 ^ (width + 1) % 256 = n % 256 :=
      Nat.mod_mod_of_dvd n (Dvd.intro_left (256 ^ width) rfl)
    have hhigh : n % 256 ^ (width + 1) / 256 = n / 256 % 256 ^ width := by
      rw [pow_succ, Nat.mul_comm, Nat.mod_mul_right_div_self]
    rw [bytes, hlow, hhigh, ih, bytes]

theorem value_append (as bs : List UInt8) : value (as ++ bs) = value as + 256 ^ as.length * value bs := by
  induction as with
  | nil => rw [List.nil_append, List.length_nil, pow_zero, one_mul, value, zero_add]
  | cons a as ih =>
    rw [List.cons_append, value, value, ih, List.length_cons, pow_succ]
    ring

/-- One more byte, shifted to its place. -/
theorem value_take_succ {bs : List UInt8} {n : Nat} (hlt : n < bs.length) :
    value (bs.take (n + 1)) = value (bs.take n) + (bs.getD n 0).toNat <<< (8 * n) := by
  have hget : bs.getD n 0 = bs[n] := List.getD_eq_getElem _ _ hlt
  rw [List.take_succ_eq_append_getElem hlt, value_append, List.length_take,
    Nat.min_eq_left (by omega), hget, Nat.shiftLeft_eq, pow_mul]
  show _ + 256 ^ n * (bs[n].toNat + 256 * 0) = _ + bs[n].toNat * 256 ^ n
  ring

/-- **The bytes, each shifted to its place.** -/
theorem foldl_shift (bs : List UInt8) :
    (List.range bs.length).foldl (fun sum i => sum + (bs.getD i 0).toNat <<< (8 * i)) 0 = value bs := by
  have hloop : ∀ n ≤ bs.length,
      (List.range n).foldl (fun sum i => sum + (bs.getD i 0).toNat <<< (8 * i)) 0 = value (bs.take n) := by
    intro n
    induction n with
    | zero => exact fun _ => rfl
    | succ n ih =>
      intro hn
      rw [List.range_succ, List.foldl_append, ih (by omega), value_take_succ (by omega)]
      rfl
  have hall := hloop bs.length (Nat.le_refl _)
  rwa [List.take_length] at hall

theorem value_lt (bs : List UInt8) : value bs < 256 ^ bs.length := by
  induction bs with
  | nil => exact Nat.one_pos
  | cons b bs ih =>
    have hbyte : b.toNat < 256 := b.toNat_lt
    rw [value, List.length_cons, pow_succ]
    omega

/-- The same with the bytes set rather than added: no two share a place. -/
theorem foldl_or (bs : List UInt8) :
    (List.range bs.length).foldl (fun bits i => bits ||| (bs.getD i 0).toNat <<< (8 * i)) 0 = value bs := by
  have hloop : ∀ n ≤ bs.length,
      (List.range n).foldl (fun bits i => bits ||| (bs.getD i 0).toNat <<< (8 * i)) 0 = value (bs.take n) := by
    intro n
    induction n with
    | zero => exact fun _ => rfl
    | succ n ih =>
      intro hn
      have hlow : value (bs.take n) < 2 ^ (8 * n) := by
        have hlt := value_lt (bs.take n)
        rwa [List.length_take, Nat.min_eq_left (by omega), show (256 : Nat) = 2 ^ 8 from rfl,
          ← pow_mul] at hlt
      rw [List.range_succ, List.foldl_append, ih (by omega), value_take_succ (by omega)]
      show value (bs.take n) ||| (bs.getD n 0).toNat <<< (8 * n) = _
      rw [Nat.shiftLeft_eq, Nat.mul_comm, Nat.or_comm, ← Nat.two_pow_add_eq_or_of_lt hlow, Nat.add_comm]
  have hall := hloop bs.length (Nat.le_refl _)
  rwa [List.take_length] at hall

/-- The bytes of the number that some bytes spell. -/
theorem bytes_value (bs : List UInt8) : bytes bs.length (value bs) = bs := by
  induction bs with
  | nil => rfl
  | cons b bs ih =>
    have hbyte : b.toNat < 256 := b.toNat_lt
    have hlow : (b.toNat + 256 * value bs) % 256 = b.toNat := by omega
    have hhigh : (b.toNat + 256 * value bs) / 256 = value bs := by omega
    rw [value, List.length_cons, bytes, hlow, hhigh, ih, UInt8.ofNat_toNat]

/-- The bytes, each shifted down from its place. -/
theorem map_shiftRight (width n : Nat) :
    (List.range width).map (fun i => UInt8.ofNat (n >>> (8 * i) &&& 0xFF)) = bytes width n := by
  induction width generalizing n with
  | zero => rfl
  | succ width ih =>
    have hbyte : n >>> (8 * 0) &&& 0xFF = n % 256 := Nat.and_two_pow_sub_one_eq_mod n 8
    have hrest : ∀ i, n >>> (8 * (i + 1)) = (n / 256) >>> (8 * i) := by
      intro i
      rw [show n / 256 = n >>> 8 from (Nat.shiftRight_eq_div_pow n 8).symm, ← Nat.shiftRight_add]
      congr 1
      ring
    rw [List.range_succ_eq_map, List.map_cons, List.map_map, bytes, hbyte, ← ih]
    congr 1
    refine List.map_congr_left fun i _ => ?_
    show UInt8.ofNat (n >>> (8 * (i + 1)) &&& 0xFF) = _
    rw [hrest]

/-! ## Two's complement -/

/-- What two's complement of `width` bytes holds. -/
def Holds (width : Nat) (n : Int) : Prop := -2 ^ (8 * width - 1) ≤ n ∧ n < 2 ^ (8 * width - 1)

instance (width : Nat) (n : Int) : Decidable (Holds width n) := inferInstanceAs (Decidable (_ ∧ _))

def pattern (width : Nat) (n : Int) : Nat := (n % 2 ^ (8 * width)).toNat

/-- The number of a pattern, negative where its highest bit is set. -/
def signed (width bits : Nat) : Int :=
  if bits < 2 ^ (8 * width - 1) then bits else bits - 2 ^ (8 * width)

section
variable {width : Nat}

/-- Half of the patterns are below the highest bit. -/
theorem two_pow_eq (hwidth : 0 < width) : 2 ^ (8 * width) = 2 * 2 ^ (8 * width - 1) := by
  rw [← pow_succ']
  congr 1
  omega

theorem pattern_lt (width : Nat) (n : Int) : pattern width n < 2 ^ (8 * width) := by
  have hpos : (0 : Int) < 2 ^ (8 * width) := Int.pow_pos (by decide)
  have hlt : n % 2 ^ (8 * width) < 2 ^ (8 * width) := Int.emod_lt_of_pos _ hpos
  have hnonneg : 0 ≤ n % 2 ^ (8 * width) := Int.emod_nonneg _ (by omega)
  have hcast : ((2 ^ (8 * width) : Nat) : Int) = 2 ^ (8 * width) := by push_cast; rfl
  unfold pattern
  omega

/-- **What is held reads back.** -/
theorem signed_pattern (hwidth : 0 < width) {n : Int} (hholds : Holds width n) :
    signed width (pattern width n) = n := by
  have htwice := two_pow_eq hwidth
  have hcast : ((2 ^ (8 * width - 1) : Nat) : Int) = 2 ^ (8 * width - 1) := by push_cast; rfl
  have hcastAll : ((2 ^ (8 * width) : Nat) : Int) = 2 ^ (8 * width) := by push_cast; rfl
  obtain ⟨hlow, hhigh⟩ := hholds
  unfold signed pattern
  rw [← hcastAll]
  rw [← hcast] at hlow hhigh
  generalize 2 ^ (8 * width) = all at htwice ⊢
  generalize 2 ^ (8 * width - 1) = half at *
  rcases lt_or_ge n 0 with hneg | hpos
  · have hmod : n % (all : Int) = n + all := by
      rw [← Int.add_emod_right, Int.emod_eq_of_lt (by omega) (by omega)]
    rw [hmod, if_neg (by omega)]
    omega
  · rw [Int.emod_eq_of_lt hpos (by omega), if_pos (by omega)]
    omega

/-- **So is every pattern of the width.** -/
theorem pattern_signed (hwidth : 0 < width) {bits : Nat} (hlt : bits < 2 ^ (8 * width)) :
    pattern width (signed width bits) = bits := by
  have htwice := two_pow_eq hwidth
  have hcastAll : ((2 ^ (8 * width) : Nat) : Int) = 2 ^ (8 * width) := by push_cast; rfl
  unfold signed pattern
  rw [← hcastAll]
  generalize 2 ^ (8 * width) = all at htwice hlt ⊢
  split
  · rw [Int.emod_eq_of_lt (by omega) (by omega)]
    omega
  · rw [← Int.add_emod_right, Int.emod_eq_of_lt (by omega) (by omega)]
    omega

end

end LittleEndian
