import MojoHttp.Bytes

/-!
# Python's `str`

A text of the Python side is a list of code points, lone surrogates among them, and becomes bytes where
it is encoded.

* **`Str.encodeUtf8`**, **`Str.encodeAscii`** — `str.encode`, `none` where it raises `UnicodeEncodeError`.
* **`Str.ofBytes`** — the text whose code points are some bytes; an ASCII text is its own encoding.
-/

namespace MojoHttp

abbrev CodePoint := Fin 0x110000

abbrev Str := List CodePoint

/-- A code point of the first 256. -/
def codePoint (b : UInt8) : CodePoint := ⟨b.toNat, Nat.lt_of_lt_of_le b.toNat_lt (by decide)⟩

/-- The digits of `x` and `hexdigest`. -/
def hexAlphabet : Bytes := ascii "0123456789abcdef"

namespace Str

def ofBytes (text : Bytes) : Str := text.map codePoint

/-- `encode("ascii")`. -/
def encodeAscii : Str → Option Bytes
  | [] => some []
  | c :: rest => if c.val < 0x80 then (encodeAscii rest).map (UInt8.ofNat c.val :: ·) else none

/-- One code point in UTF-8; a surrogate has no encoding. -/
def utf8Of (c : CodePoint) : Option Bytes :=
  if c.val < 0x80 then some [UInt8.ofNat c.val]
  else if c.val < 0x800 then some [UInt8.ofNat (0xC0 + c.val / 64), UInt8.ofNat (0x80 + c.val % 64)]
  else if 0xD800 ≤ c.val ∧ c.val ≤ 0xDFFF then none
  else if c.val < 0x10000 then
    some [UInt8.ofNat (0xE0 + c.val / 4096), UInt8.ofNat (0x80 + c.val / 64 % 64), UInt8.ofNat (0x80 + c.val % 64)]
  else
    some [UInt8.ofNat (0xF0 + c.val / 262144), UInt8.ofNat (0x80 + c.val / 4096 % 64),
      UInt8.ofNat (0x80 + c.val / 64 % 64), UInt8.ofNat (0x80 + c.val % 64)]

/-- `encode("utf-8")`. -/
def encodeUtf8 : Str → Option Bytes
  | [] => some []
  | c :: rest =>
    match utf8Of c, encodeUtf8 rest with
    | some head, some tail => some (head ++ tail)
    | _, _ => none

@[simp] theorem ofBytes_append (a b : Bytes) : ofBytes (a ++ b) = ofBytes a ++ ofBytes b := List.map_append

theorem encodeUtf8_cons_eq_some {c : CodePoint} {s : Str} {b : Bytes} : encodeUtf8 (c :: s) = some b ↔
    ∃ head tail, utf8Of c = some head ∧ encodeUtf8 s = some tail ∧ b = head ++ tail := by
  rw [encodeUtf8]
  cases utf8Of c with
  | none => simp
  | some head =>
    cases encodeUtf8 s with
    | none => simp
    | some tail => simp [eq_comm]

theorem encodeUtf8_append {a b : Str} {x y : Bytes} (ha : encodeUtf8 a = some x) (hb : encodeUtf8 b = some y) :
    encodeUtf8 (a ++ b) = some (x ++ y) := by
  induction a generalizing x with
  | nil =>
    cases ha
    exact hb
  | cons c a ih =>
    obtain ⟨head, tail, hhead, htail, rfl⟩ := encodeUtf8_cons_eq_some.mp ha
    exact encodeUtf8_cons_eq_some.mpr ⟨head, tail ++ y, hhead, ih htail, List.append_assoc _ _ _⟩

theorem codePoint_injective : Function.Injective codePoint := by
  intro a b heq
  have hval : (codePoint a).val = (codePoint b).val := by rw [heq]
  exact UInt8.toNat_inj.mp hval

theorem ofBytes_injective : Function.Injective ofBytes := List.map_injective_iff.mpr codePoint_injective

theorem encodeAscii_ofBytes {text : Bytes} (hascii : ∀ b ∈ text, b < 0x80) :
    encodeAscii (ofBytes text) = some text := by
  induction text with
  | nil => rfl
  | cons b rest ih =>
    have hb : (codePoint b).val < 0x80 := UInt8.lt_iff_toNat_lt.mp (hascii b List.mem_cons_self)
    unfold ofBytes at ih ⊢
    rw [List.map_cons]
    unfold encodeAscii
    rw [if_pos hb, ih fun x hx => hascii x (List.mem_cons_of_mem _ hx)]
    show some (UInt8.ofNat b.toNat :: rest) = _
    rw [UInt8.ofNat_toNat]

theorem encodeUtf8_ofBytes {text : Bytes} (hascii : ∀ b ∈ text, b < 0x80) :
    encodeUtf8 (ofBytes text) = some text := by
  induction text with
  | nil => rfl
  | cons b rest ih =>
    have hb : (codePoint b).val < 0x80 := UInt8.lt_iff_toNat_lt.mp (hascii b List.mem_cons_self)
    have hhead : utf8Of (codePoint b) = some [b] := by
      unfold utf8Of
      rw [if_pos hb]
      show some [UInt8.ofNat b.toNat] = _
      rw [UInt8.ofNat_toNat]
    unfold ofBytes at ih ⊢
    rw [List.map_cons]
    unfold encodeUtf8
    rw [hhead, ih fun x hx => hascii x (List.mem_cons_of_mem _ hx)]
    rfl

end Str

end MojoHttp
