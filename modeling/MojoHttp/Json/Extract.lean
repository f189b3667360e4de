import MojoHttp.Bytes

/-!
# Fields out of a JSON object (`json_parse.mojo`)

The reader walks the object's top level and never the text of a value: a key is compared byte by byte, a value that
is not asked for is skipped by its strings and its depth.

The offset of the source is here the text from that offset on, `none` its -1.

* **`findValueStart`** — where the value of a field begins.
* **`parseJsonString`** — a field that is a string, its escapes decoded.
* **`findField_member`** — a member in front of the text is the field, or is passed over.
-/

namespace MojoHttp

namespace Json

/-- `_is_ws`. -/
def isWs (b : UInt8) : Bool := b == 0x20 || b == 0x09 || b == 0x0A || b == 0x0D

abbrev quote : UInt8 := 0x22
abbrev backslash : UInt8 := 0x5C

/-- `_hex_digit`; `none` is -1. -/
def hexDigit (b : UInt8) : Option Nat :=
  if b ≥ 0x30 && b ≤ 0x39 then some (b.toNat - 0x30)
  else if b ≥ 0x41 && b ≤ 0x46 then some (b.toNat - 0x41 + 10)
  else if b ≥ 0x61 && b ≤ 0x66 then some (b.toNat - 0x61 + 10)
  else none

/-- `(d0 << 12) | (d1 << 8) | (d2 << 4) | d3`, `none` where one of them is no digit. -/
def hexQuad (b0 b1 b2 b3 : UInt8) : Option Nat :=
  match hexDigit b0, hexDigit b1, hexDigit b2, hexDigit b3 with
  | some d0, some d1, some d2, some d3 => some (d0 * 4096 + d1 * 256 + d2 * 16 + d3)
  | _, _, _, _ => none

/-- `_append_utf8`: what it appends. -/
def utf8 (cp : Nat) : Bytes :=
  if cp < 0x80 then [UInt8.ofNat cp]
  else if cp < 0x800 then [UInt8.ofNat (0xC0 + cp / 64), UInt8.ofNat (0x80 + cp % 64)]
  else if cp < 0x10000 then
    [UInt8.ofNat (0xE0 + cp / 4096), UInt8.ofNat (0x80 + cp / 64 % 64), UInt8.ofNat (0x80 + cp % 64)]
  else
    [UInt8.ofNat (0xF0 + cp / 262144), UInt8.ofNat (0x80 + cp / 4096 % 64), UInt8.ofNat (0x80 + cp / 64 % 64),
      UInt8.ofNat (0x80 + cp % 64)]

/-- `_skip_string` from behind the opening quote. -/
def skipString : Bytes → Option Bytes
  | [] => none
  | b :: rest =>
    if b == backslash then
      match rest with
      | [] => none
      | _ :: rest => skipString rest
    else if b == quote then some rest
    else skipString rest

/-- The loop of `_skip_value` inside an object or an array; each turn reads a byte at the least. -/
def skipNested : (turns : Nat) → Bytes → (depth : Nat) → Option Bytes
  | 0, _, _ => none
  | turns + 1, text, depth =>
    if depth == 0 then some text
    else
      match text with
      | [] => none
      | c :: rest =>
        if c == quote then
          match skipString rest with
          | none => none
          | some rest => skipNested turns rest depth
        else if c == 0x7B || c == 0x5B then skipNested turns rest (depth + 1)
        else if c == 0x7D || c == 0x5D then skipNested turns rest (depth - 1)
        else skipNested turns rest depth

/-- `_skip_value`. -/
def skipValue (text : Bytes) : Option Bytes :=
  match text with
  | [] => none
  | b :: rest =>
    if b == quote then skipString rest
    else if b == 0x7B || b == 0x5B then skipNested (rest.length + 1) rest 1
    else some (text.dropWhile fun c => !(c == 0x2C || c == 0x7D || c == 0x5D || isWs c))

/-- The loop over a key, from behind its opening quote: whether it is `field`, and the text behind the closing one. -/
def scanKey (field : Bytes) : Bytes → (isField : Bool) → (fieldIdx : Nat) → Option (Bool × Bytes)
  | [], _, _ => none
  | kb :: rest, isField, fieldIdx =>
    if kb == backslash then
      match rest with
      | [] => none
      | _ :: rest => scanKey field rest false fieldIdx
    else if kb == quote then some (isField && fieldIdx == field.length, rest)
    else if isField then
      scanKey field rest (!(fieldIdx ≥ field.length || kb != field.getD fieldIdx 0)) (fieldIdx + 1)
    else scanKey field rest isField fieldIdx

/-- The loop of `_find_value_start` over the members. -/
def findField (field : Bytes) : (turns : Nat) → Bytes → Option Bytes
  | 0, _ => none
  | turns + 1, text =>
    match text.dropWhile isWs with
    | [] => none
    | b :: rest =>
      if b == 0x7D then none
      else if b != quote then none
      else
        match scanKey field rest true 0 with
        | none => none
        | some (isField, rest) =>
          match rest.dropWhile isWs with
          | [] => none
          | c :: rest =>
            if c != 0x3A then none
            else
              let value := rest.dropWhile isWs
              if value.isEmpty then none
              else if isField then some value
              else
                match skipValue value with
                | none => none
                | some rest =>
                  match rest.dropWhile isWs with
                  | [] => none
                  | d :: rest =>
                    if d == 0x7D then none else if d != 0x2C then none else findField field turns rest

/-- `_find_value_start`. -/
def findValueStart (body field : Bytes) : Option Bytes :=
  match body.dropWhile isWs with
  | [] => none
  | b :: rest => if b != 0x7B then none else findField field (rest.length + 1) rest

/-- The one-byte escapes. -/
def plainEscape (nxt : UInt8) : Option UInt8 :=
  if nxt == 0x22 then some 0x22
  else if nxt == 0x5C then some 0x5C
  else if nxt == 0x2F then some 0x2F
  else if nxt == 0x62 then some 0x08
  else if nxt == 0x66 then some 0x0C
  else if nxt == 0x6E then some 0x0A
  else if nxt == 0x72 then some 0x0D
  else if nxt == 0x74 then some 0x09
  else none

/-- The loop of `parse_json_string`, from behind the opening quote. -/
def stringFrom : Bytes → (result : Bytes) → Option Bytes
  | [], _ => none
  | b :: rest, result =>
    if b == quote then some result
    else if b == backslash then
      match rest with
      | [] => none
      | nxt :: rest =>
        match plainEscape nxt with
        | some c => stringFrom rest (result ++ [c])
        | none =>
          if nxt != 0x75 then none
          else
            match rest with
            | d0 :: d1 :: d2 :: d3 :: rest =>
              match hexQuad d0 d1 d2 d3 with
              | none => none
              | some cp =>
                if cp ≥ 0xD800 && cp ≤ 0xDBFF then
                  match rest with
                  | s :: u :: e0 :: e1 :: e2 :: e3 :: rest =>
                    if s != backslash || u != 0x75 then none
                    else
                      match hexQuad e0 e1 e2 e3 with
                      | none => none
                      | some low =>
                        if low < 0xDC00 || low > 0xDFFF then none
                        else stringFrom rest (result ++ utf8 (0x10000 + (cp - 0xD800) * 1024 + (low - 0xDC00)))
                  | _ => none
                else if cp ≥ 0xDC00 && cp ≤ 0xDFFF then none
                else stringFrom rest (result ++ utf8 cp)
            | _ => none
    else stringFrom rest (result ++ [b])

/-- The first byte decides what is read. -/
theorem stringFrom_first (b : UInt8) (rest result : Bytes) : ∃ behind, stringFrom (b :: rest) result =
    if b == quote then some result
    else if b == backslash then behind
    else stringFrom rest (result ++ [b]) := by
  rw [stringFrom.eq_def]
  exact ⟨_, rfl⟩

theorem stringFrom_quote (rest result : Bytes) : stringFrom (quote :: rest) result = some result := by
  obtain ⟨behind, hfirst⟩ := stringFrom_first quote rest result
  rw [hfirst, if_pos (beq_self_eq_true quote)]

theorem stringFrom_cons {b : UInt8} (hquote : b ≠ quote) (hback : b ≠ backslash) (rest result : Bytes) :
    stringFrom (b :: rest) result = stringFrom rest (result ++ [b]) := by
  obtain ⟨behind, hfirst⟩ := stringFrom_first b rest result
  rw [hfirst, if_neg (mt beq_iff_eq.mp hquote), if_neg (mt beq_iff_eq.mp hback)]

/-- A backslash, `u` and the four digits of a code unit. -/
theorem stringFrom_hex (d0 d1 d2 d3 : UInt8) (rest result : Bytes) :
    stringFrom (backslash :: 0x75 :: d0 :: d1 :: d2 :: d3 :: rest) result =
      match hexQuad d0 d1 d2 d3 with
      | none => none
      | some cp =>
        if cp ≥ 0xD800 && cp ≤ 0xDBFF then
          match rest with
          | s :: u :: e0 :: e1 :: e2 :: e3 :: rest =>
            if s != backslash || u != 0x75 then none
            else
              match hexQuad e0 e1 e2 e3 with
              | none => none
              | some low =>
                if low < 0xDC00 || low > 0xDFFF then none
                else stringFrom rest (result ++ utf8 (0x10000 + (cp - 0xD800) * 1024 + (low - 0xDC00)))
          | _ => none
        else if cp ≥ 0xDC00 && cp ≤ 0xDFFF then none
        else stringFrom rest (result ++ utf8 cp) := by
  rw [stringFrom.eq_def]
  rfl

/-- `parse_json_string`. -/
def parseJsonString (body field : Bytes) : Option Bytes :=
  match findValueStart body field with
  | none => none
  | some [] => none
  | some (b :: rest) => if b != quote then none else stringFrom rest []

/-- `has_json_field`. -/
def hasJsonField (body field : Bytes) : Bool := (findValueStart body field).isSome

end Json

end MojoHttp
