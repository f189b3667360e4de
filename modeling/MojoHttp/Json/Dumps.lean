import MojoHttp.Json.Strings
import MojoHttp.Python.Str

/-!
# What `json.dumps` writes, read back

`json.dumps` of a `dict` of strings, ASCII only and without blanks, and the reader of `json_parse.mojo` on it.

* **`Json.stringFrom_jsonString`** — a string without surrogates reads back as its UTF-8: an escape of one
  code point at a time, a pair of them above U+FFFF.
* **`Json.parseJsonString_dumps`** — a member of the object is found whatever the members before it hold.
-/

namespace MojoHttp

namespace Json

/-- `'\\u{0:04x}'`. -/
def uEscape (n : Nat) : Bytes :=
  [backslash, 0x75, hexAlphabet.getD (n / 4096) 0, hexAlphabet.getD (n / 256 % 16) 0,
    hexAlphabet.getD (n / 16 % 16) 0, hexAlphabet.getD (n % 16) 0]

/-- One code point in `py_encode_basestring_ascii`. -/
def escape (c : CodePoint) : Bytes :=
  if c.val = 0x22 then [backslash, 0x22]
  else if c.val = 0x5C then [backslash, 0x5C]
  else if c.val = 0x0A then [backslash, 0x6E]
  else if c.val = 0x0D then [backslash, 0x72]
  else if c.val = 0x09 then [backslash, 0x74]
  else if c.val = 0x0C then [backslash, 0x66]
  else if c.val = 0x08 then [backslash, 0x62]
  else if 0x20 ≤ c.val ∧ c.val ≤ 0x7E then [UInt8.ofNat c.val]
  else if c.val < 0x10000 then uEscape c.val
  else uEscape (0xD800 + (c.val - 0x10000) / 1024) ++ uEscape (0xDC00 + (c.val - 0x10000) % 1024)

def jsonString (s : Str) : Bytes := quote :: s.flatMap escape ++ [quote]

def member (m : Bytes × Str) : Bytes := quote :: m.1 ++ [quote, 0x3A] ++ jsonString m.2

/-- `json.dumps(..., separators=(",", ":"))` of a `dict`, its members in order. -/
def dumps (members : List (Bytes × Str)) : Bytes :=
  0x7B :: [0x2C].intercalate (members.map member) ++ [0x7D]

/-! ## A string reads back -/

theorem hexDigit_hexAlphabet {d : Nat} (hd : d < 16) : hexDigit (hexAlphabet.getD d 0) = some d :=
  (by decide : ∀ d < 16, hexDigit (hexAlphabet.getD d 0) = some d) d hd

theorem hexQuad_uEscape {n : Nat} (hn : n < 0x10000) :
    hexQuad (hexAlphabet.getD (n / 4096) 0) (hexAlphabet.getD (n / 256 % 16) 0) (hexAlphabet.getD (n / 16 % 16) 0)
      (hexAlphabet.getD (n % 16) 0) = some n := by
  unfold hexQuad
  rw [hexDigit_hexAlphabet (by omega), hexDigit_hexAlphabet (by omega), hexDigit_hexAlphabet (by omega),
    hexDigit_hexAlphabet (by omega)]
  dsimp only
  rw [show n / 4096 * 4096 + n / 256 % 16 * 256 + n / 16 % 16 * 16 + n % 16 = n from by omega]

/-- The code points that have an encoding. -/
theorem utf8Of_eq_some {c : CodePoint} {b : Bytes} (h : Str.utf8Of c = some b) :
    ¬ (0xD800 ≤ c.val ∧ c.val ≤ 0xDFFF) ∧ b = utf8 c.val := by
  unfold Str.utf8Of at h
  unfold utf8
  by_cases h1 : c.val < 0x80
  · rw [if_pos h1] at h ⊢
    exact ⟨by omega, (Option.some.inj h).symm⟩
  rw [if_neg h1] at h ⊢
  by_cases h2 : c.val < 0x800
  · rw [if_pos h2] at h ⊢
    exact ⟨by omega, (Option.some.inj h).symm⟩
  rw [if_neg h2] at h ⊢
  by_cases h3 : 0xD800 ≤ c.val ∧ c.val ≤ 0xDFFF
  · rw [if_pos h3] at h
    cases h
  rw [if_neg h3] at h
  by_cases h4 : c.val < 0x10000
  · rw [if_pos h4] at h ⊢
    exact ⟨h3, (Option.some.inj h).symm⟩
  · rw [if_neg h4] at h ⊢
    exact ⟨h3, (Option.some.inj h).symm⟩

theorem utf8_ne_nil (cp : Nat) : utf8 cp ≠ [] := by
  unfold utf8
  split
  · exact List.cons_ne_nil _ _
  split
  · exact List.cons_ne_nil _ _
  split
  · exact List.cons_ne_nil _ _
  · exact List.cons_ne_nil _ _

theorem stringFrom_uEscape {n : Nat} (hn : n < 0x10000) (hnot : ¬ (0xD800 ≤ n ∧ n ≤ 0xDFFF)) (rest result : Bytes) :
    stringFrom (uEscape n ++ rest) result = stringFrom rest (result ++ utf8 n) := by
  unfold uEscape
  simp only [List.cons_append, List.nil_append]
  rw [stringFrom_hex, hexQuad_uEscape hn]
  dsimp only
  rw [if_neg (by simp only [Bool.and_eq_true, decide_eq_true_eq]; omega),
    if_neg (by simp only [Bool.and_eq_true, decide_eq_true_eq]; omega)]

/-- A pair of surrogates reads back as the code point it stands for. -/
theorem stringFrom_pair {high low : Nat} (hhigh : high < 1024) (hlow : low < 1024) (rest result : Bytes) :
    stringFrom (uEscape (0xD800 + high) ++ uEscape (0xDC00 + low) ++ rest) result =
      stringFrom rest (result ++ utf8 (0x10000 + high * 1024 + low)) := by
  have hquadHigh := hexQuad_uEscape (n := 0xD800 + high) (by omega)
  have hquadLow := hexQuad_uEscape (n := 0xDC00 + low) (by omega)
  unfold uEscape
  simp only [List.cons_append, List.nil_append]
  rw [stringFrom_hex, hquadHigh]
  simp only [hquadLow, bne_self_eq_false, Bool.false_eq_true, if_false, Bool.or_self]
  rw [if_pos (by simp only [Bool.and_eq_true, decide_eq_true_eq]; omega),
    if_neg (by simp only [Bool.or_eq_true, decide_eq_true_eq]; omega),
    Nat.add_sub_cancel_left, Nat.add_sub_cancel_left]

/-- A printable character but a quote or a backslash. -/
theorem plain_ne {c : CodePoint} (hrange : 0x20 ≤ c.val ∧ c.val ≤ 0x7E) (hquote : c.val ≠ 0x22)
    (hbackslash : c.val ≠ 0x5C) :
    (UInt8.ofNat c.val == quote) = false ∧ (UInt8.ofNat c.val == backslash) = false := by
  refine ⟨beq_eq_false_iff_ne.mpr fun heq => hquote ?_, beq_eq_false_iff_ne.mpr fun heq => hbackslash ?_⟩
  · have hnat := congrArg UInt8.toNat heq
    rwa [UInt8.toNat_ofNat_of_lt' (show c.val < 256 by omega)] at hnat
  · have hnat := congrArg UInt8.toNat heq
    rwa [UInt8.toNat_ofNat_of_lt' (show c.val < 256 by omega)] at hnat

/-- **One code point** reads back. -/
theorem stringFrom_escape {c : CodePoint} (hnot : ¬ (0xD800 ≤ c.val ∧ c.val ≤ 0xDFFF)) (rest result : Bytes) :
    stringFrom (escape c ++ rest) result = stringFrom rest (result ++ utf8 c.val) := by
  unfold escape
  by_cases h1 : c.val = 0x22
  · rw [if_pos h1, h1]
    rfl
  rw [if_neg h1]
  by_cases h2 : c.val = 0x5C
  · rw [if_pos h2, h2]
    rfl
  rw [if_neg h2]
  by_cases h3 : c.val = 0x0A
  · rw [if_pos h3, h3]
    rfl
  rw [if_neg h3]
  by_cases h4 : c.val = 0x0D
  · rw [if_pos h4, h4]
    rfl
  rw [if_neg h4]
  by_cases h5 : c.val = 0x09
  · rw [if_pos h5, h5]
    rfl
  rw [if_neg h5]
  by_cases h6 : c.val = 0x0C
  · rw [if_pos h6, h6]
    rfl
  rw [if_neg h6]
  by_cases h7 : c.val = 0x08
  · rw [if_pos h7, h7]
    rfl
  rw [if_neg h7]
  by_cases h8 : 0x20 ≤ c.val ∧ c.val ≤ 0x7E
  · obtain ⟨hquote, hbackslash⟩ := plain_ne h8 h1 h2
    have hutf8 : utf8 c.val = [UInt8.ofNat c.val] := if_pos (by omega)
    rw [if_pos h8, List.singleton_append, stringFrom_cons (beq_eq_false_iff_ne.mp hquote) (beq_eq_false_iff_ne.mp hbackslash),
      hutf8]
  rw [if_neg h8]
  by_cases h9 : c.val < 0x10000
  · rw [if_pos h9]
    exact stringFrom_uEscape h9 hnot rest result
  · have hlt := c.isLt
    rw [if_neg h9, stringFrom_pair (by omega) (by omega),
      show 0x10000 + (c.val - 0x10000) / 1024 * 1024 + (c.val - 0x10000) % 1024 = c.val from by omega]

/-- **A string** reads back as its UTF-8. -/
theorem stringFrom_jsonString {s : Str} {b : Bytes} (hs : s.encodeUtf8 = some b) (rest result : Bytes) :
    stringFrom (s.flatMap escape ++ quote :: rest) result = some (result ++ b) := by
  induction s generalizing b result with
  | nil =>
    cases hs
    rw [List.append_nil, List.flatMap_nil, List.nil_append, stringFrom_quote]
  | cons c s ih =>
    obtain ⟨head, tail, hhead, htail, rfl⟩ := Str.encodeUtf8_cons_eq_some.mp hs
    obtain ⟨hnot, rfl⟩ := utf8Of_eq_some hhead
    rw [List.flatMap_cons, List.append_assoc, stringFrom_escape hnot, ih htail, List.append_assoc]

/-! ## A string is passed over -/

/-- No digit is a quote or a backslash. -/
theorem skipString_uEscape (n : Nat) (hn : n < 0x10000) (rest : Bytes) :
    skipString (uEscape n ++ rest) = skipString rest := by
  have hdigit : ∀ d < 16, (hexAlphabet.getD d 0 == quote) = false ∧ (hexAlphabet.getD d 0 == backslash) = false := by
    decide
  have hskip : ∀ d < 16, ∀ rest, skipString (hexAlphabet.getD d 0 :: rest) = skipString rest :=
    fun d hd rest => skipString_plain (hdigit d hd).1 (hdigit d hd).2 rest
  unfold uEscape
  simp only [List.cons_append, List.nil_append]
  rw [skipString_backslash, hskip _ (by omega), hskip _ (by omega), hskip _ (by omega), hskip _ (by omega)]

theorem skipString_escape (c : CodePoint) (rest : Bytes) : skipString (escape c ++ rest) = skipString rest := by
  unfold escape
  by_cases h1 : c.val = 0x22
  · rw [if_pos h1]
    exact skipString_backslash _ _
  rw [if_neg h1]
  by_cases h2 : c.val = 0x5C
  · rw [if_pos h2]
    exact skipString_backslash _ _
  rw [if_neg h2]
  by_cases h3 : c.val = 0x0A
  · rw [if_pos h3]
    exact skipString_backslash _ _
  rw [if_neg h3]
  by_cases h4 : c.val = 0x0D
  · rw [if_pos h4]
    exact skipString_backslash _ _
  rw [if_neg h4]
  by_cases h5 : c.val = 0x09
  · rw [if_pos h5]
    exact skipString_backslash _ _
  rw [if_neg h5]
  by_cases h6 : c.val = 0x0C
  · rw [if_pos h6]
    exact skipString_backslash _ _
  rw [if_neg h6]
  by_cases h7 : c.val = 0x08
  · rw [if_pos h7]
    exact skipString_backslash _ _
  rw [if_neg h7]
  by_cases h8 : 0x20 ≤ c.val ∧ c.val ≤ 0x7E
  · obtain ⟨hquote, hbackslash⟩ := plain_ne h8 h1 h2
    rw [if_pos h8]
    exact skipString_plain hquote hbackslash rest
  rw [if_neg h8]
  by_cases h9 : c.val < 0x10000
  · rw [if_pos h9]
    exact skipString_uEscape _ h9 rest
  · have hlt := c.isLt
    rw [if_neg h9, List.append_assoc, skipString_uEscape _ (by omega), skipString_uEscape _ (by omega)]

theorem skipString_jsonString (s : Str) (rest : Bytes) : skipString (s.flatMap escape ++ quote :: rest) = some rest := by
  induction s with
  | nil =>
    rw [List.flatMap_nil, List.nil_append, skipString.eq_def]
    rfl
  | cons c s ih => rw [List.flatMap_cons, List.append_assoc, skipString_escape, ih]

/-! ## A member of the object -/

/-- **A member in front** is the field, or is passed over. -/
theorem findField_member {field : Bytes} {m : Bytes × Str} (hkey : PlainKey m.1) (turns : Nat) (tail : Bytes) :
    findField field (turns + 1) (member m ++ tail) =
      if field = m.1 then some (jsonString m.2 ++ tail)
      else
        match tail.dropWhile isWs with
        | [] => none
        | d :: rest => if d == 0x7D then none else if d != 0x2C then none else findField field turns rest := by
  have hshape : member m ++ tail = quote :: (m.1 ++ quote :: (0x3A :: (jsonString m.2 ++ tail))) := by
    unfold member
    simp
  have hvalue : jsonString m.2 ++ tail = quote :: (m.2.flatMap escape ++ quote :: tail) := by
    unfold jsonString
    simp
  have hscan := @scanKey_append field m.1 hkey (0x3A :: (jsonString m.2 ++ tail)) true 0 (fun _ => Nat.zero_le _)
  rw [Bool.true_and, List.drop_zero] at hscan
  have hquote : ∀ rest : Bytes, (quote :: rest).dropWhile isWs = quote :: rest := fun _ => rfl
  have hcolon : ∀ rest : Bytes, ((0x3A : UInt8) :: rest).dropWhile isWs = 0x3A :: rest := fun _ => rfl
  have hblank : (jsonString m.2 ++ tail).dropWhile isWs = jsonString m.2 ++ tail := by
    rw [hvalue]
    rfl
  have hskip : skipValue (jsonString m.2 ++ tail) = some tail := by
    rw [hvalue]
    unfold skipValue
    dsimp only
    rw [if_pos BEq.rfl, skipString_jsonString]
  rw [hshape, findField, hquote]
  dsimp only
  rw [show (quote == 0x7D) = false from rfl, if_neg Bool.false_ne_true, bne_self_eq_false, if_neg Bool.false_ne_true,
    hscan]
  dsimp only
  rw [hcolon]
  dsimp only
  rw [bne_self_eq_false, if_neg Bool.false_ne_true, hblank, hskip]
  have hnonempty : (jsonString m.2 ++ tail).isEmpty = false := by
    rw [hvalue]
    rfl
  rw [hnonempty, if_neg Bool.false_ne_true]
  by_cases hfield : field = m.1
  · exact (if_pos (decide_eq_true hfield)).trans (if_pos hfield).symm
  · have hother : ¬ decide (field = m.1) = true := fun h => hfield (of_decide_eq_true h)
    exact (if_neg hother).trans (if_neg hfield).symm

/-- The first member of that key is where the walk ends; what the members in front of it hold does not matter. -/
theorem findField_members {field : Bytes} {members : List (Bytes × Str)} (hkeys : ∀ m ∈ members, PlainKey m.1)
    {turns : Nat} (hturns : members.length ≤ turns) {s : Str} (hlookup : members.lookup field = some s) (tail : Bytes) :
    ∃ behind, findField field turns ([0x2C].intercalate (members.map member) ++ tail) =
      some (jsonString s ++ behind) := by
  induction members generalizing turns with
  | nil => cases hlookup
  | cons m members ih =>
    obtain ⟨turns, rfl⟩ : ∃ n, turns = n + 1 := ⟨turns - 1, by rw [List.length_cons] at hturns; omega⟩
    have hm := hkeys m List.mem_cons_self
    rw [List.lookup_cons] at hlookup
    by_cases hfield : field = m.1
    · rw [hfield, BEq.rfl] at hlookup
      cases hlookup
      cases members with
      | nil =>
        rw [List.map_singleton, List.intercalate_singleton, findField_member hm, if_pos hfield]
        exact ⟨_, rfl⟩
      | cons next members =>
        rw [List.map_cons, List.map_cons, List.intercalate_cons_cons, List.append_assoc, List.append_assoc,
          findField_member hm, if_pos hfield]
        exact ⟨_, rfl⟩
    · rw [beq_eq_false_iff_ne.mpr hfield] at hlookup
      cases members with
      | nil => cases hlookup
      | cons next members =>
        have hrest := ih (fun m hm => hkeys m (List.mem_cons_of_mem _ hm)) (Nat.le_of_succ_le_succ hturns) hlookup
        rw [List.map_cons, List.map_cons, List.intercalate_cons_cons, List.append_assoc, List.append_assoc,
          findField_member hm, if_neg hfield]
        exact hrest

theorem length_le_intercalate (members : List (Bytes × Str)) :
    members.length ≤ ([0x2C].intercalate (members.map member)).length := by
  induction members with
  | nil => exact Nat.zero_le _
  | cons m members ih =>
    have hmember : 1 ≤ (member m).length := by simp [member]
    cases members with
    | nil =>
      rw [List.map_singleton, List.intercalate_singleton]
      exact hmember
    | cons next members =>
      rw [List.map_cons, List.map_cons, List.intercalate_cons_cons, List.length_append, List.length_append,
        List.length_cons]
      rw [List.map_cons] at ih
      omega

theorem findValueStart_dumps {field : Bytes} {members : List (Bytes × Str)} (hkeys : ∀ m ∈ members, PlainKey m.1)
    {s : Str} (hlookup : members.lookup field = some s) :
    ∃ behind, findValueStart (dumps members) field = some (jsonString s ++ behind) := by
  unfold findValueStart dumps
  rw [List.cons_append, show ∀ rest : Bytes, ((0x7B : UInt8) :: rest).dropWhile isWs = 0x7B :: rest from fun _ => rfl]
  dsimp only
  rw [bne_self_eq_false, if_neg Bool.false_ne_true]
  refine findField_members hkeys ?_ hlookup [0x7D]
  have hle := length_le_intercalate members
  rw [List.length_append]
  omega

/-- **A member of the object** reads back as its UTF-8. -/
theorem parseJsonString_dumps {field : Bytes} {members : List (Bytes × Str)} (hkeys : ∀ m ∈ members, PlainKey m.1)
    {s : Str} (hlookup : members.lookup field = some s) {b : Bytes} (hs : s.encodeUtf8 = some b) :
    parseJsonString (dumps members) field = some b := by
  obtain ⟨behind, hstart⟩ := findValueStart_dumps hkeys hlookup
  have hstring : jsonString s ++ behind = quote :: (s.flatMap escape ++ quote :: behind) := by
    unfold jsonString
    simp
  unfold parseJsonString
  rw [hstart, hstring]
  dsimp only
  rw [bne_self_eq_false, if_neg Bool.false_ne_true, stringFrom_jsonString hs, List.nil_append]

theorem hasJsonField_dumps {field : Bytes} {members : List (Bytes × Str)} (hkeys : ∀ m ∈ members, PlainKey m.1)
    {s : Str} (hlookup : members.lookup field = some s) : hasJsonField (dumps members) field = true := by
  obtain ⟨behind, hstart⟩ := findValueStart_dumps hkeys hlookup
  unfold hasJsonField
  rw [hstart]
  rfl

end Json

end MojoHttp
