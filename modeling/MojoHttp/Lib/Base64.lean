import Mathlib.Data.List.Basic

/-!
# Base64 (RFC 4648 §4)

* **`symbols`** — the text of some bytes, each three of them four symbols, a rest of one or two
  bytes two or three symbols.
* **`encode`** — the symbols, padded to whole groups of four.

How many symbols there are depends on the number of bytes alone, and a pad is no symbol, so a
reader that cuts the padding off has the symbols whichever end it comes from.
-/

namespace Base64

/-- The symbol of a six-bit value. -/
def symbol (n : Nat) : UInt8 :=
  if n < 26 then UInt8.ofNat (0x41 + n)
  else if n < 52 then UInt8.ofNat (0x61 + (n - 26))
  else if n < 62 then UInt8.ofNat (0x30 + (n - 52))
  else if n = 62 then 0x2B
  else 0x2F

def pad : UInt8 := 0x3D

/-- A letter, a digit, `+` or `/`. -/
def isSymbol (c : UInt8) : Bool :=
  (c ≥ 0x41 && c ≤ 0x5A) || (c ≥ 0x61 && c ≤ 0x7A) || (c ≥ 0x30 && c ≤ 0x39) || c == 0x2B || c == 0x2F

/-- The symbols of some bytes, the last of them filled up with zero bits. -/
def symbols : List UInt8 → List UInt8
  | a :: b :: c :: rest =>
    symbol (a.toNat / 4) :: symbol (a.toNat % 4 * 16 + b.toNat / 16) ::
      symbol (b.toNat % 16 * 4 + c.toNat / 64) :: symbol (c.toNat % 64) :: symbols rest
  | [a, b] => [symbol (a.toNat / 4), symbol (a.toNat % 4 * 16 + b.toNat / 16), symbol (b.toNat % 16 * 4)]
  | [a] => [symbol (a.toNat / 4), symbol (a.toNat % 4 * 16)]
  | [] => []

/-- What `n` bytes are padded with. -/
def padding (n : Nat) : List UInt8 := List.replicate ((3 - n % 3) % 3) pad

def encode (data : List UInt8) : List UInt8 := symbols data ++ padding data.length

theorem isSymbol_symbol (n : Nat) : isSymbol (symbol n) = true := by
  rcases Nat.lt_or_ge n 63 with hlt | hge
  · revert n
    decide
  · unfold symbol
    rw [if_neg (by omega), if_neg (by omega), if_neg (by omega), if_neg (by omega)]
    decide

theorem isSymbol_pad : isSymbol pad = false := by decide

theorem isSymbol_of_mem_symbols (data : List UInt8) : ∀ c ∈ symbols data, isSymbol c = true := by
  induction data using symbols.induct with
  | case1 a b c rest ih =>
    intro x hx
    unfold symbols at hx
    rcases List.mem_cons.mp hx with rfl | hx
    · exact isSymbol_symbol _
    rcases List.mem_cons.mp hx with rfl | hx
    · exact isSymbol_symbol _
    rcases List.mem_cons.mp hx with rfl | hx
    · exact isSymbol_symbol _
    rcases List.mem_cons.mp hx with rfl | hx
    · exact isSymbol_symbol _
    exact ih x hx
  | case2 a b => simp [symbols, isSymbol_symbol]
  | case3 a => simp [symbols, isSymbol_symbol]
  | case4 => simp [symbols]

theorem length_symbols (data : List UInt8) : (symbols data).length = (4 * data.length + 2) / 3 := by
  induction data using symbols.induct with
  | case1 a b c rest ih =>
    simp only [symbols, List.length_cons, ih]
    omega
  | case2 a b => simp [symbols]
  | case3 a => simp [symbols]
  | case4 => simp [symbols]

end Base64
