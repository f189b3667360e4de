import MojoHttp.Lib.LittleEndian

/-!
# SHA-256 (FIPS 180-4)

The hash as the standard states it: the padded message (5.1.1), its blocks (5.2.1), the message schedule and the
sixty-four steps of a block (6.2.2).

* **`zeroBits_spec`** — the padding fills the last block up to its length field.
* **`blocks_append`** — the blocks of a text that starts with whole blocks.
* **`hash`** — the function of the whole message.
-/

namespace Fips180

abbrev Word := UInt32

/-! ## Functions (4.1.2) -/

def rotr (n x : Word) : Word := (x >>> n) ||| (x <<< (32 - n))

def ch (x y z : Word) : Word := (x &&& y) ^^^ (~~~x &&& z)

def maj (x y z : Word) : Word := (x &&& y) ^^^ (x &&& z) ^^^ (y &&& z)

def bigSigma0 (x : Word) : Word := rotr 2 x ^^^ rotr 13 x ^^^ rotr 22 x

def bigSigma1 (x : Word) : Word := rotr 6 x ^^^ rotr 11 x ^^^ rotr 25 x

def smallSigma0 (x : Word) : Word := rotr 7 x ^^^ rotr 18 x ^^^ (x >>> 3)

def smallSigma1 (x : Word) : Word := rotr 17 x ^^^ rotr 19 x ^^^ (x >>> 10)

/-- The sixty-four constants (4.2.2). -/
def K : List Word :=
  [0x428A2F98, 0x71374491, 0xB5C0FBCF, 0xE9B5DBA5, 0x3956C25B, 0x59F111F1,
    0x923F82A4, 0xAB1C5ED5, 0xD807AA98, 0x12835B01, 0x243185BE, 0x550C7DC3,
    0x72BE5D74, 0x80DEB1FE, 0x9BDC06A7, 0xC19BF174, 0xE49B69C1, 0xEFBE4786,
    0x0FC19DC6, 0x240CA1CC, 0x2DE92C6F, 0x4A7484AA, 0x5CB0A9DC, 0x76F988DA,
    0x983E5152, 0xA831C66D, 0xB00327C8, 0xBF597FC7, 0xC6E00BF3, 0xD5A79147,
    0x06CA6351, 0x14292967, 0x27B70A85, 0x2E1B2138, 0x4D2C6DFC, 0x53380D13,
    0x650A7354, 0x766A0ABB, 0x81C2C92E, 0x92722C85, 0xA2BFE8A1, 0xA81A664B,
    0xC24B8B70, 0xC76C51A3, 0xD192E819, 0xD6990624, 0xF40E3585, 0x106AA070,
    0x19A4C116, 0x1E376C08, 0x2748774C, 0x34B0BCB5, 0x391C0CB3, 0x4ED8AA4A,
    0x5B9CCA4F, 0x682E6FF3, 0x748F82EE, 0x78A5636F, 0x84C87814, 0x8CC70208,
    0x90BEFFFA, 0xA4506CEB, 0xBEF9A3F7, 0xC67178F2]

/-- The first sixty-four primes. -/
def primes : List Nat :=
  [2, 3, 5, 7, 11, 13, 17, 19, 23, 29, 31, 37, 41, 43, 47, 53, 59, 61, 67, 71,
    73, 79, 83, 89, 97, 101, 103, 107, 109, 113, 127, 131, 137, 139, 149, 151, 157, 163, 167, 173,
    179, 181, 191, 193, 197, 199, 211, 223, 227, 229, 233, 239, 241, 251, 257, 263, 269, 271, 277, 281,
    283, 293, 307, 311]

/-- **The constants** are the first 32 bits of the fractional parts of the cube roots of the first primes: with a
whole part in front, the largest number whose cube is not past the prime's. -/
theorem K_spec : ∀ t < 64, ∃ whole < 7,
    (whole * 2 ^ 32 + (K.getD t 0).toNat) ^ 3 ≤ primes.getD t 0 * 2 ^ 96 ∧
      primes.getD t 0 * 2 ^ 96 < (whole * 2 ^ 32 + (K.getD t 0).toNat + 1) ^ 3 := by
  decide

/-! ## The hash value -/

/-- Eight words: a hash value, and the working variables of a block. -/
structure HashValue where
  a : Word
  b : Word
  c : Word
  d : Word
  e : Word
  f : Word
  g : Word
  h : Word
  deriving Repr, DecidableEq

/-- The initial hash value (5.3.3). -/
def initial : HashValue :=
  ⟨0x6A09E667, 0xBB67AE85, 0x3C6EF372, 0xA54FF53A, 0x510E527F, 0x9B05688C, 0x1F83D9AB, 0x5BE0CD19⟩

def HashValue.add (x y : HashValue) : HashValue :=
  ⟨x.a + y.a, x.b + y.b, x.c + y.c, x.d + y.d, x.e + y.e, x.f + y.f, x.g + y.g, x.h + y.h⟩

/-! ## A block (6.2.2) -/

/-- A word from its four bytes, the highest first. -/
def word (b0 b1 b2 b3 : UInt8) : Word :=
  UInt32.ofNat (b0.toNat * 2 ^ 24 + b1.toNat * 2 ^ 16 + b2.toNat * 2 ^ 8 + b3.toNat)

/-- The words of a block. -/
def message (block : List UInt8) (t : Nat) : Word :=
  word (block.getD (4 * t) 0) (block.getD (4 * t + 1) 0) (block.getD (4 * t + 2) 0) (block.getD (4 * t + 3) 0)

/-- The message schedule. -/
def schedule (M : Nat → Word) (t : Nat) : Word :=
  if t < 16 then M t
  else
    smallSigma1 (schedule M (t - 2)) + schedule M (t - 7) + smallSigma0 (schedule M (t - 15)) + schedule M (t - 16)
termination_by t

/-- One step of the working variables. -/
def step (k w : Word) (v : HashValue) : HashValue :=
  let t1 := v.h + bigSigma1 v.e + ch v.e v.f v.g + k + w
  let t2 := bigSigma0 v.a + maj v.a v.b v.c
  ⟨t1 + t2, v.a, v.b, v.c, v.d + t1, v.e, v.f, v.g⟩

/-- The hash value behind a block. -/
def compress (H : HashValue) (block : List UInt8) : HashValue :=
  H.add ((List.range 64).foldl (fun v t => step (K.getD t 0) (schedule (message block) t) v) H)

/-! ## The padded message -/

/-- `width` bytes of a number, the highest first. -/
def bigEndian (width n : Nat) : List UInt8 := (LittleEndian.bytes width n).reverse

/-- The smallest `k` with `l + 1 + k` congruent to 448 modulo 512. -/
def zeroBits (l : Nat) : Nat := (959 - l % 512) % 512

theorem zeroBits_spec (l : Nat) : (l + 1 + zeroBits l) % 512 = 448 ∧ zeroBits l < 512 := by
  unfold zeroBits
  omega

/-- What is put behind a message of `n` bytes: a one bit, zeros, the length in bits. -/
def padding (n : Nat) : List UInt8 :=
  0x80 :: List.replicate ((zeroBits (8 * n) - 7) / 8) 0 ++ bigEndian 8 (8 * n)

@[simp] theorem length_bigEndian (width n : Nat) : (bigEndian width n).length = width := by
  rw [bigEndian, List.length_reverse, LittleEndian.length_bytes]

/-- The length field reads back as the length, for every message the standard has a hash of. -/
theorem value_length {n : Nat} (h : n < 2 ^ 61) : LittleEndian.value (bigEndian 8 (8 * n)).reverse = 8 * n := by
  rw [bigEndian, List.reverse_reverse]
  apply LittleEndian.value_bytes
  omega

/-- How many zero bytes stand behind the one bit's: up to the length field, in this block or in the next. -/
theorem zeroBytes_eq (n : Nat) :
    (zeroBits (8 * n) - 7) / 8 = if n % 64 ≤ 55 then 55 - n % 64 else 119 - n % 64 := by
  unfold zeroBits
  split
  · omega
  · omega

/-! ## Blocks -/

/-- The whole blocks of a text. -/
def blocks (t : List UInt8) : List (List UInt8) :=
  (List.range (t.length / 64)).map fun i => (t.drop (64 * i)).take 64

theorem blocks_of_short {t : List UInt8} (h : t.length < 64) : blocks t = [] := by
  rw [blocks, Nat.div_eq_of_lt h]
  rfl

theorem blocks_block {b : List UInt8} (hb : b.length = 64) (t : List UInt8) : blocks (b ++ t) = b :: blocks t := by
  have hcount : (b ++ t).length / 64 = t.length / 64 + 1 := by
    rw [List.length_append, hb]
    omega
  rw [blocks, hcount, List.range_succ_eq_map, List.map_cons, List.map_map, Nat.mul_zero, List.drop_zero,
    List.take_left' hb]
  congr 1
  apply List.map_congr_left
  intro i _
  show ((b ++ t).drop (64 * (i + 1))).take 64 = (t.drop (64 * i)).take 64
  rw [List.drop_append, List.drop_eq_nil_of_le (by omega), List.nil_append, hb,
    show 64 * (i + 1) - 64 = 64 * i from by omega]

/-- **Whole blocks in front of a text.** -/
theorem blocks_append {s : List UInt8} (hs : s.length % 64 = 0) (t : List UInt8) :
    blocks (s ++ t) = blocks s ++ blocks t := by
  obtain ⟨k, hk⟩ : ∃ k, s.length = 64 * k := ⟨s.length / 64, by omega⟩
  induction k generalizing s with
  | zero =>
    have hnil : s = [] := List.length_eq_zero_iff.mp (by omega)
    rw [hnil]
    rfl
  | succ k ih =>
    have hfirst : (s.take 64).length = 64 := by
      rw [List.length_take]
      omega
    have hrest : (s.drop 64).length = 64 * k := by
      rw [List.length_drop]
      omega
    have hsplit : blocks s = s.take 64 :: blocks (s.drop 64) := by
      conv_lhs => rw [← List.take_append_drop 64 s]
      exact blocks_block hfirst _
    rw [hsplit]
    conv_lhs => rw [← List.take_append_drop 64 s]
    rw [List.append_assoc, blocks_block hfirst, ih (by omega) hrest]
    rfl

/-- What stands behind the whole blocks. -/
def tail (t : List UInt8) : List UInt8 := t.drop (64 * (t.length / 64))

theorem length_tail (t : List UInt8) : (tail t).length = t.length % 64 := by
  rw [tail, List.length_drop]
  omega

/-- **What is put behind a text** adds the blocks it completes. -/
theorem blocks_append_tail (t x : List UInt8) : blocks (t ++ x) = blocks t ++ blocks (tail t ++ x) := by
  have hwhole : (t.take (64 * (t.length / 64))).length % 64 = 0 := by
    rw [List.length_take]
    omega
  have hsplit : t = t.take (64 * (t.length / 64)) ++ tail t := (List.take_append_drop _ _).symm
  have hself : blocks t = blocks (t.take (64 * (t.length / 64))) := by
    conv_lhs => rw [hsplit]
    rw [blocks_append hwhole, blocks_of_short (t := tail t) (by rw [length_tail]; omega), List.append_nil]
  conv_lhs => rw [hsplit]
  rw [List.append_assoc, blocks_append hwhole, ← hself]

theorem tail_append {t x : List UInt8} (h : (tail t ++ x).length < 64) : tail (t ++ x) = tail t ++ x := by
  rw [List.length_append, length_tail] at h
  unfold tail
  rw [List.length_append, show (t.length + x.length) / 64 = t.length / 64 from by omega,
    List.drop_append_of_le_length (by omega)]

theorem tail_eq_nil {t : List UInt8} (h : t.length % 64 = 0) : tail t = [] := by
  rw [← List.length_eq_zero_iff, length_tail, h]

/-- A text put behind another that completes its last block. -/
theorem blocks_append_block {t x : List UInt8} (h : (tail t ++ x).length = 64) :
    blocks (t ++ x) = blocks t ++ [tail t ++ x] := by
  have hone := blocks_block h []
  rw [List.append_nil, blocks_of_short (t := []) (by decide)] at hone
  rw [blocks_append_tail, hone]

/-! ## The hash (6.2) -/

/-- A word's four bytes, the highest first. -/
def wordBytes (x : Word) : List UInt8 := bigEndian 4 x.toNat

def HashValue.bytes (H : HashValue) : List UInt8 :=
  wordBytes H.a ++ wordBytes H.b ++ wordBytes H.c ++ wordBytes H.d ++ wordBytes H.e ++ wordBytes H.f ++
    wordBytes H.g ++ wordBytes H.h

/-- SHA-256. -/
def hash (m : List UInt8) : List UInt8 :=
  ((blocks (m ++ padding m.length)).foldl compress initial).bytes

theorem length_hash (m : List UInt8) : (hash m).length = 32 := by
  simp [hash, HashValue.bytes, wordBytes]

end Fips180
