import Mathlib.Data.List.Basic

/-!
# JSON (RFC 8259)

Syntax trees that keep every byte of the text: what a tree spells is a text of the grammar, and every text of the
grammar is spelled by one.

* **`text`** — the characters of a string literal; two code units that are a surrogate pair are one, and there is
  none where a surrogate stands alone.
* **`Number`** — the parts of a number, each as the grammar has it.
* **`Tree`** — values, and what stands between the brackets of one.
* **`Tree.lookup`** — the first member of an object with a key.
-/

namespace Rfc8259

/-- The text of the characters, in UTF-8. -/
def utf8 (cs : List Char) : List UInt8 := cs.flatMap String.utf8EncodeChar

/-- `unescaped = %x20-21 / %x23-5B / %x5D-10FFFF` -/
def isUnescaped (c : Char) : Bool := decide (0x20 ≤ c.toNat) && c.toNat != 0x22 && c.toNat != 0x5C

/-- The two-byte escapes. -/
inductive Escape
  | quotationMark
  | reverseSolidus
  | solidus
  | backspace
  | formFeed
  | lineFeed
  | carriageReturn
  | tab
  deriving DecidableEq, Repr

def Escape.letter : Escape → UInt8
  | quotationMark => 0x22
  | reverseSolidus => 0x5C
  | solidus => 0x2F
  | backspace => 0x62
  | formFeed => 0x66
  | lineFeed => 0x6E
  | carriageReturn => 0x72
  | tab => 0x74

def Escape.char : Escape → Char
  | quotationMark => '\u0022'
  | reverseSolidus => '\u005C'
  | solidus => '\u002F'
  | backspace => '\u0008'
  | formFeed => '\u000C'
  | lineFeed => '\u000A'
  | carriageReturn => '\u000D'
  | tab => '\u0009'

def isHexDigit (b : UInt8) : Bool :=
  (decide (0x30 ≤ b) && decide (b ≤ 0x39)) || (decide (0x41 ≤ b) && decide (b ≤ 0x46)) ||
    (decide (0x61 ≤ b) && decide (b ≤ 0x66))

/-- `HEXDIG`, of either case. -/
structure HexDigit where
  byte : UInt8
  isHex : isHexDigit byte = true
  deriving DecidableEq, Repr

def HexDigit.value (d : HexDigit) : Nat :=
  if d.byte ≤ 0x39 then d.byte.toNat - 0x30
  else if d.byte ≤ 0x46 then d.byte.toNat - 0x37
  else d.byte.toNat - 0x57

/-- The digits of a `\u` escape. -/
structure CodeUnit where
  d0 : HexDigit
  d1 : HexDigit
  d2 : HexDigit
  d3 : HexDigit
  deriving DecidableEq, Repr

namespace CodeUnit

def value (u : CodeUnit) : Nat := u.d0.value * 4096 + u.d1.value * 256 + u.d2.value * 16 + u.d3.value

def isHigh (u : CodeUnit) : Bool := decide (0xD800 ≤ u.value) && decide (u.value ≤ 0xDBFF)

def isLow (u : CodeUnit) : Bool := decide (0xDC00 ≤ u.value) && decide (u.value ≤ 0xDFFF)

/-- The character of a code unit that is no surrogate. -/
def char (u : CodeUnit) : Char := Char.ofNat u.value

/-- The character of a surrogate pair. -/
def pair (high low : CodeUnit) : Char := Char.ofNat (0x10000 + (high.value - 0xD800) * 0x400 + (low.value - 0xDC00))

end CodeUnit

inductive Item
  | char (c : Char) (h : isUnescaped c = true)
  | escape (e : Escape)
  | unit (u : CodeUnit)
  deriving DecidableEq, Repr

/-- The bytes of an item. -/
def Item.spell : Item → List UInt8
  | .char c _ => String.utf8EncodeChar c
  | .escape e => [0x5C, e.letter]
  | .unit u => [0x5C, 0x75, u.d0.byte, u.d1.byte, u.d2.byte, u.d3.byte]

/-- The bytes between the quotation marks. -/
def spell (items : List Item) : List UInt8 := items.flatMap Item.spell

def literal (items : List Item) : List UInt8 := 0x22 :: (spell items ++ [0x22])

/-- The characters of a literal; nothing where a surrogate stands alone. -/
def text : List Item → Option (List Char)
  | [] => some []
  | .char c _ :: items => (text items).map (c :: ·)
  | .escape e :: items => (text items).map (e.char :: ·)
  | .unit u :: items =>
    if u.isHigh then
      match items with
      | .unit v :: items => if v.isLow then (text items).map (CodeUnit.pair u v :: ·) else none
      | _ => none
    else if u.isLow then none
    else (text items).map (u.char :: ·)

theorem spell_cons (item : Item) (items : List Item) : spell (item :: items) = item.spell ++ spell items :=
  List.flatMap_cons

/-! ## Bytes of characters -/

/-- A character past ASCII has no byte of ASCII. -/
theorem mem_utf8EncodeChar {c : Char} {b : UInt8} (hb : b ∈ String.utf8EncodeChar c) :
    (c.toNat < 0x80 ∧ b = UInt8.ofNat c.toNat) ∨ 0x80 ≤ b := by
  have hlead : ∀ n, 0x80 ≤ n → n < 0x100 → (0x80 : UInt8) ≤ UInt8.ofNat n := by
    intro n hn hlt
    rw [UInt8.le_iff_toNat_le, UInt8.toNat_ofNat_of_lt' hlt]
    exact hn
  unfold String.utf8EncodeChar at hb
  dsimp only at hb
  split at hb
  · next hascii =>
    left
    exact ⟨Nat.lt_succ_of_le hascii, List.mem_singleton.mp hb⟩
  · right
    split at hb
    · simp only [List.mem_cons, List.not_mem_nil, or_false] at hb
      rcases hb with hb | hb
      all_goals
        rw [hb]
        exact hlead _ (by omega) (by omega)
    · split at hb
      · simp only [List.mem_cons, List.not_mem_nil, or_false] at hb
        rcases hb with hb | hb | hb
        all_goals
          rw [hb]
          exact hlead _ (by omega) (by omega)
      · simp only [List.mem_cons, List.not_mem_nil, or_false] at hb
        rcases hb with hb | hb | hb | hb
        all_goals
          rw [hb]
          exact hlead _ (by omega) (by omega)

theorem utf8EncodeChar_ascii {c : Char} (h : c.toNat < 0x80) :
    String.utf8EncodeChar c = [UInt8.ofNat c.toNat] := by
  unfold String.utf8EncodeChar
  exact if_pos (Nat.le_of_lt_succ h)

/-- The bytes of an unescaped character are neither quotation marks, reverse solidi nor controls. -/
theorem unescaped_bytes {c : Char} (h : isUnescaped c = true) :
    ∀ b ∈ String.utf8EncodeChar c, b ≠ 0x22 ∧ b ≠ 0x5C ∧ 0x20 ≤ b := by
  intro b hb
  simp only [isUnescaped, Bool.and_eq_true, decide_eq_true_eq, bne_iff_ne, ne_eq] at h
  obtain ⟨⟨hctrl, hquote⟩, hsolidus⟩ := h
  rcases mem_utf8EncodeChar hb with ⟨hascii, heq⟩ | hhigh
  · have hval : b.toNat = c.toNat := by
      rw [heq]
      exact UInt8.toNat_ofNat_of_lt' (show c.toNat < 256 by omega)
    refine ⟨?_, ?_, ?_⟩
    · intro hbad
      rw [hbad] at hval
      exact hquote hval.symm
    · intro hbad
      rw [hbad] at hval
      exact hsolidus hval.symm
    · rw [UInt8.le_iff_toNat_le, hval]
      exact hctrl
  · have hval : 0x80 ≤ b.toNat := UInt8.le_iff_toNat_le.mp hhigh
    refine ⟨?_, ?_, ?_⟩
    · intro hbad
      rw [hbad] at hval
      exact absurd hval (by decide)
    · intro hbad
      rw [hbad] at hval
      exact absurd hval (by decide)
    · rw [UInt8.le_iff_toNat_le]
      exact Nat.le_trans (by decide) hval

/-! ## Numbers (section 6) -/

def isDigit (b : UInt8) : Bool := decide (0x30 ≤ b) && decide (b ≤ 0x39)

/-- `1*DIGIT` -/
def IsDigits (ds : List UInt8) : Prop := ds ≠ [] ∧ ∀ b ∈ ds, isDigit b = true

/-- `int = zero / ( digit1-9 *DIGIT )` -/
def IsInt (ds : List UInt8) : Prop := ds = [0x30] ∨ (IsDigits ds ∧ ds.head? ≠ some 0x30)

/-- `[ frac ]`, `frac = decimal-point 1*DIGIT` -/
def IsFrac (t : List UInt8) : Prop := t = [] ∨ ∃ ds, IsDigits ds ∧ t = 0x2E :: ds

/-- `[ exp ]`, `exp = e [ minus / plus ] 1*DIGIT` -/
def IsExp (t : List UInt8) : Prop :=
  t = [] ∨ ∃ e sign ds, (e = 0x65 ∨ e = 0x45) ∧ (sign = [] ∨ sign = [0x2B] ∨ sign = [0x2D]) ∧ IsDigits ds ∧
    t = e :: (sign ++ ds)

/-- `number = [ minus ] int [ frac ] [ exp ]` -/
structure Number where
  minus : Bool
  int : List UInt8
  frac : List UInt8
  exp : List UInt8
  isInt : IsInt int
  isFrac : IsFrac frac
  isExp : IsExp exp

namespace Number

def spell (n : Number) : List UInt8 := (if n.minus then [0x2D] else []) ++ (n.int ++ (n.frac ++ n.exp))

/-- A number with neither a fraction nor an exponent. -/
def isInteger (n : Number) : Bool := n.frac.isEmpty && n.exp.isEmpty

end Number

/-- The number digits write. -/
def digitsValue (ds : List UInt8) : Nat := ds.foldl (fun m b => m * 10 + (b.toNat - 0x30)) 0

/-- The integer a number without fraction and exponent writes. -/
def Number.value (n : Number) : Int := if n.minus then -(digitsValue n.int : Int) else digitsValue n.int

/-! ## Values (sections 2 to 5) -/

def isWs (b : UInt8) : Bool := b == 0x20 || b == 0x09 || b == 0x0A || b == 0x0D

/-- `ws` -/
abbrev Ws : Type := { w : List UInt8 // ∀ b ∈ w, isWs b = true }

inductive Kind
  | value
  | elements
  | members
  deriving DecidableEq, Repr

/-- Values, the elements of an array, the members of an object, with the whitespace that is insignificant. -/
inductive Tree : Kind → Type
  | null : Tree .value
  | bool (b : Bool) : Tree .value
  | number (n : Number) : Tree .value
  | string (items : List Item) : Tree .value
  | emptyArray (w : Ws) : Tree .value
  | array (es : Tree .elements) : Tree .value
  | emptyObject (w : Ws) : Tree .value
  | object (ms : Tree .members) : Tree .value
  | element (before : Ws) (v : Tree .value) (after : Ws) : Tree .elements
  | elements (before : Ws) (v : Tree .value) (after : Ws) (rest : Tree .elements) : Tree .elements
  | member (before : Ws) (key : List Item) (behindKey beforeValue : Ws) (v : Tree .value) (after : Ws) : Tree .members
  | members (before : Ws) (key : List Item) (behindKey beforeValue : Ws) (v : Tree .value) (after : Ws)
      (rest : Tree .members) : Tree .members

namespace Tree

def spell : {k : Kind} → Tree k → List UInt8
  | _, .null => [0x6E, 0x75, 0x6C, 0x6C]
  | _, .bool true => [0x74, 0x72, 0x75, 0x65]
  | _, .bool false => [0x66, 0x61, 0x6C, 0x73, 0x65]
  | _, .number n => n.spell
  | _, .string items => literal items
  | _, .emptyArray w => 0x5B :: (w.val ++ [0x5D])
  | _, .array es => 0x5B :: (es.spell ++ [0x5D])
  | _, .emptyObject w => 0x7B :: (w.val ++ [0x7D])
  | _, .object ms => 0x7B :: (ms.spell ++ [0x7D])
  | _, .element before v after => before.val ++ (v.spell ++ after.val)
  | _, .elements before v after rest => before.val ++ (v.spell ++ (after.val ++ 0x2C :: rest.spell))
  | _, .member before key behindKey beforeValue v after =>
    before.val ++ (literal key ++ (behindKey.val ++ 0x3A :: (beforeValue.val ++ (v.spell ++ after.val))))
  | _, .members before key behindKey beforeValue v after rest =>
    before.val ++ (literal key ++ (behindKey.val ++ 0x3A :: (beforeValue.val ++ (v.spell ++
      (after.val ++ 0x2C :: rest.spell)))))

/-- The value of the first member whose key is accepted. -/
def find (isKey : List Item → Bool) : {k : Kind} → Tree k → Option (Tree .value)
  | _, .member _ key _ _ v _ => if isKey key then some v else none
  | _, .members _ key _ _ v _ rest => if isKey key then some v else find isKey rest
  | _, _ => none

/-- Induction over the members of an object. -/
theorem membersInduction {motive : Tree .members → Prop}
    (member : ∀ before key behindKey beforeValue v after, motive (.member before key behindKey beforeValue v after))
    (members : ∀ before key behindKey beforeValue v after rest, motive rest →
      motive (.members before key behindKey beforeValue v after rest)) : ∀ ms, motive ms
  | .member before key behindKey beforeValue v after => member before key behindKey beforeValue v after
  | .members before key behindKey beforeValue v after rest =>
    members before key behindKey beforeValue v after rest (membersInduction member members rest)

/-- The value of the first member of an object whose key is accepted; a value that is no object has none. -/
def lookup (isKey : List Item → Bool) : Tree .value → Option (Tree .value)
  | .object ms => ms.find isKey
  | _ => none

end Tree

end Rfc8259
