import MojoHttp.Json.Extract
import MojoHttp.Lib.Rfc8259

/-!
# What the string reader makes of a literal (`parse_json_string`)

* **`utf8_eq`** — `_append_utf8` writes a character's UTF-8.
* **`stringFrom_literal`** — the reader returns the text of a literal, nothing where the literal has none.
* **`parseJsonString_of_found`** — so does `parse_json_string` where the field's value is the literal.
-/

namespace MojoHttp

namespace Json

open Rfc8259 (Item CodeUnit HexDigit)

/-! ## One item -/

/-- **`_append_utf8`** writes the UTF-8 of a character. -/
theorem utf8_eq {cp : Nat} (h : cp.isValidChar) : utf8 cp = String.utf8EncodeChar (Char.ofNat cp) := by
  have hval : (Char.ofNat cp).val.toNat = cp := by
    rw [Char.ofNat, dif_pos h]
    rfl
  have hlt : cp < 0x110000 := by
    rcases h with h | h
    · omega
    · exact h.2
  unfold utf8 String.utf8EncodeChar
  dsimp only
  rw [hval]
  by_cases h1 : cp < 0x80
  · rw [if_pos h1, if_pos (show cp ≤ 0x7F by omega)]
  · rw [if_neg h1, if_neg (show ¬cp ≤ 0x7F by omega)]
    by_cases h2 : cp < 0x800
    · rw [if_pos h2, if_pos (show cp ≤ 0x7FF by omega), show cp / 64 % 0x20 + 0xC0 = 0xC0 + cp / 64 from by omega,
        show cp % 0x40 + 0x80 = 0x80 + cp % 64 from by omega]
    · rw [if_neg h2, if_neg (show ¬cp ≤ 0x7FF by omega), show cp % 0x40 + 0x80 = 0x80 + cp % 64 from by omega,
        show cp / 64 % 0x40 + 0x80 = 0x80 + cp / 64 % 64 from by omega]
      by_cases h3 : cp < 0x10000
      · rw [if_pos h3, if_pos (show cp ≤ 0xFFFF by omega),
          show cp / 4096 % 0x10 + 0xE0 = 0xE0 + cp / 4096 from by omega]
      · rw [if_neg h3, if_neg (show ¬cp ≤ 0xFFFF by omega),
          show cp / 262144 % 0x08 + 0xF0 = 0xF0 + cp / 262144 from by omega,
          show cp / 4096 % 0x40 + 0x80 = 0x80 + cp / 4096 % 64 from by omega]

theorem hexDigit_digit (d : HexDigit) : hexDigit d.byte = some d.value := by
  have hall : ∀ b : UInt8, Rfc8259.isHexDigit b = true →
      hexDigit b = some (if b ≤ 0x39 then b.toNat - 0x30 else if b ≤ 0x46 then b.toNat - 0x37 else b.toNat - 0x57) :=
    forall_byte (P := fun b => Rfc8259.isHexDigit b = true →
      hexDigit b = some (if b ≤ 0x39 then b.toNat - 0x30 else if b ≤ 0x46 then b.toNat - 0x37 else b.toNat - 0x57))
      (by decide)
  exact hall d.byte d.isHex

theorem value_lt (d : HexDigit) : d.value < 16 := by
  have hall : ∀ b : UInt8, Rfc8259.isHexDigit b = true →
      (if b ≤ 0x39 then b.toNat - 0x30 else if b ≤ 0x46 then b.toNat - 0x37 else b.toNat - 0x57) < 16 :=
    forall_byte (P := fun b => Rfc8259.isHexDigit b = true →
      (if b ≤ 0x39 then b.toNat - 0x30 else if b ≤ 0x46 then b.toNat - 0x37 else b.toNat - 0x57) < 16)
      (by decide)
  exact hall d.byte d.isHex

theorem hexQuad_unit (u : CodeUnit) : hexQuad u.d0.byte u.d1.byte u.d2.byte u.d3.byte = some u.value := by
  unfold hexQuad
  rw [hexDigit_digit, hexDigit_digit, hexDigit_digit, hexDigit_digit]
  rfl

theorem unit_lt (u : CodeUnit) : u.value < 0x10000 := by
  have h0 := value_lt u.d0
  have h1 := value_lt u.d1
  have h2 := value_lt u.d2
  have h3 := value_lt u.d3
  unfold CodeUnit.value
  omega

theorem plainEscape_letter (e : Rfc8259.Escape) :
    ∃ c, plainEscape e.letter = some c ∧ String.utf8EncodeChar e.char = [c] := by
  cases e
  all_goals exact ⟨_, rfl, rfl⟩

/-! ## The reader's steps -/

/-- Bytes that are neither the quote nor the backslash go through. -/
theorem stringFrom_run {bs : Bytes} (h : ∀ b ∈ bs, b ≠ quote ∧ b ≠ backslash) (t result : Bytes) :
    stringFrom (bs ++ t) result = stringFrom t (result ++ bs) := by
  induction bs generalizing result with
  | nil => rw [List.nil_append, List.append_nil]
  | cons b bs ih =>
    obtain ⟨hquote, hback⟩ := h b List.mem_cons_self
    rw [List.cons_append, stringFrom_cons hquote hback, ih fun x hx => h x (List.mem_cons_of_mem _ hx),
      List.append_assoc, List.singleton_append]

theorem stringFrom_char {c : Char} (h : Rfc8259.isUnescaped c = true) (t result : Bytes) :
    stringFrom (String.utf8EncodeChar c ++ t) result = stringFrom t (result ++ String.utf8EncodeChar c) := by
  apply stringFrom_run
  intro b hb
  obtain ⟨hquote, hback, -⟩ := Rfc8259.unescaped_bytes h b hb
  exact ⟨hquote, hback⟩

theorem stringFrom_short (e : Rfc8259.Escape) (t result : Bytes) :
    stringFrom ((Item.escape e).spell ++ t) result =
      stringFrom t (result ++ String.utf8EncodeChar e.char) := by
  obtain ⟨c, hletter, hchar⟩ := plainEscape_letter e
  show stringFrom (backslash :: e.letter :: t) result = _
  rw [stringFrom.eq_def]
  dsimp only
  rw [if_neg (by decide), if_pos (show (backslash == backslash) = true from rfl), hchar]
  simp only [hletter]

/-- A code unit that is no surrogate. -/
theorem stringFrom_unit {u : CodeUnit} (hhigh : u.isHigh = false) (hlow : u.isLow = false) (t result : Bytes) :
    stringFrom ((Item.unit u).spell ++ t) result = stringFrom t (result ++ String.utf8EncodeChar u.char) := by
  have hlt := unit_lt u
  have hvalid : u.value.isValidChar := by
    simp only [CodeUnit.isHigh, CodeUnit.isLow, Bool.and_eq_false_iff, decide_eq_false_iff_not] at hhigh hlow
    unfold Nat.isValidChar
    omega
  show stringFrom (backslash :: 0x75 :: u.d0.byte :: u.d1.byte :: u.d2.byte :: u.d3.byte :: t) result = _
  rw [stringFrom_hex, hexQuad_unit]
  rw [CodeUnit.isHigh] at hhigh
  rw [CodeUnit.isLow] at hlow
  simp only [ge_iff_le, hhigh, hlow, Bool.false_eq_true, if_false]
  rw [utf8_eq hvalid]
  rfl

/-- A low surrogate where no high one is in front. -/
theorem stringFrom_low {u : CodeUnit} (hhigh : u.isHigh = false) (hlow : u.isLow = true) (t result : Bytes) :
    stringFrom ((Item.unit u).spell ++ t) result = none := by
  show stringFrom (backslash :: 0x75 :: u.d0.byte :: u.d1.byte :: u.d2.byte :: u.d3.byte :: t) result = _
  rw [stringFrom_hex, hexQuad_unit]
  rw [CodeUnit.isHigh] at hhigh
  rw [CodeUnit.isLow] at hlow
  simp only [ge_iff_le, hhigh, hlow, Bool.false_eq_true, if_false, if_true]

/-- A high surrogate and the low one behind it. -/
theorem stringFrom_units {u v : CodeUnit} (hhigh : u.isHigh = true) (hlow : v.isLow = true) (t result : Bytes) :
    stringFrom ((Item.unit u).spell ++ ((Item.unit v).spell ++ t)) result =
      stringFrom t (result ++ String.utf8EncodeChar (CodeUnit.pair u v)) := by
  have hvalid : (0x10000 + (u.value - 0xD800) * 1024 + (v.value - 0xDC00)).isValidChar := by
    simp only [CodeUnit.isHigh, CodeUnit.isLow, Bool.and_eq_true, decide_eq_true_eq] at hhigh hlow
    unfold Nat.isValidChar
    omega
  have hbounds : ¬(v.value < 0xDC00 ∨ v.value > 0xDFFF) := by
    simp only [CodeUnit.isLow, Bool.and_eq_true, decide_eq_true_eq] at hlow
    omega
  show stringFrom (backslash :: 0x75 :: u.d0.byte :: u.d1.byte :: u.d2.byte :: u.d3.byte ::
    backslash :: 0x75 :: v.d0.byte :: v.d1.byte :: v.d2.byte :: v.d3.byte :: t) result = _
  rw [stringFrom_hex, hexQuad_unit]
  rw [CodeUnit.isHigh] at hhigh
  simp only [ge_iff_le, hhigh, if_true]
  simp only [hexQuad_unit]
  rw [if_neg (by decide), if_neg (by simpa using hbounds), utf8_eq hvalid]
  rfl

/-- A high surrogate in front of anything but the escape of a low one. -/
theorem stringFrom_high_of {u : CodeUnit} (hhigh : u.isHigh = true) {x : Bytes}
    (halone : ∀ b w e0 e1 e2 e3 rest, x = b :: w :: e0 :: e1 :: e2 :: e3 :: rest →
      b ≠ backslash ∨ w ≠ 0x75 ∨ ∃ low, hexQuad e0 e1 e2 e3 = some low ∧ (low < 0xDC00 ∨ low > 0xDFFF))
    (result : Bytes) : stringFrom ((Item.unit u).spell ++ x) result = none := by
  show stringFrom (backslash :: 0x75 :: u.d0.byte :: u.d1.byte :: u.d2.byte :: u.d3.byte :: x) result = _
  rw [stringFrom_hex, hexQuad_unit]
  rw [CodeUnit.isHigh] at hhigh
  simp only [ge_iff_le, hhigh, if_true]
  split
  · next b w e0 e1 e2 e3 rest =>
    split
    · rfl
    · next hescape =>
      simp only [Bool.or_eq_true, bne_iff_ne, ne_eq, not_or, not_not] at hescape
      rcases halone b w e0 e1 e2 e3 rest rfl with hb | hw | ⟨low, hquad, hlow⟩
      · exact absurd hescape.1 hb
      · exact absurd hescape.2 hw
      · simp only [hquad]
        exact if_pos (by simpa using hlow)
  · rfl

/-- A high surrogate with no low one behind it. -/
theorem stringFrom_high {u : CodeUnit} (hhigh : u.isHigh = true) {items : List Item}
    (halone : ∀ v items', items = .unit v :: items' → v.isLow = false) (t result : Bytes) :
    stringFrom ((Item.unit u).spell ++ (Rfc8259.spell items ++ quote :: t)) result = none := by
  apply stringFrom_high_of hhigh
  intro b w e0 e1 e2 e3 rest hx
  cases items with
  | nil =>
    left
    have hb : quote = b := (List.cons.inj hx).1
    rw [← hb]
    decide
  | cons item items =>
    rw [Rfc8259.spell_cons] at hx
    cases item with
    | char c hc =>
      left
      have hmem : b ∈ String.utf8EncodeChar c := by
        have hne := String.utf8EncodeChar_ne_nil (c := c)
        cases hbytes : String.utf8EncodeChar c with
        | nil => exact absurd hbytes hne
        | cons b' bs =>
          rw [Item.spell, hbytes] at hx
          rw [(List.cons.inj hx).1]
          exact List.mem_cons_self
      exact (Rfc8259.unescaped_bytes hc b hmem).2.1
    | escape e =>
      right
      left
      have hw : e.letter = w := (List.cons.inj (List.cons.inj hx).2).1
      rw [← hw]
      cases e
      all_goals decide
    | unit v =>
      right
      right
      have hlow := halone v items rfl
      have hquad := hexQuad_unit v
      simp only [Item.spell, List.cons_append, List.cons.injEq] at hx
      obtain ⟨-, -, h0, h1, h2, h3, -⟩ := hx
      rw [h0, h1, h2, h3] at hquad
      refine ⟨v.value, hquad, ?_⟩
      simp only [CodeUnit.isLow, Bool.and_eq_false_iff, decide_eq_false_iff_not] at hlow
      omega

/-! ## A literal -/

/-- A character in front of a text. -/
theorem text_append (c : Char) (result : Bytes) (o : Option (List Char)) :
    (o.map fun cs => result ++ String.utf8EncodeChar c ++ Rfc8259.utf8 cs) =
      (o.map (c :: ·)).map fun cs => result ++ Rfc8259.utf8 cs := by
  rw [Option.map_map]
  congr 1
  funext cs
  rw [List.append_assoc]
  rfl

/-- **The reader returns the text of a literal**, nothing where a surrogate stands alone in it. -/
theorem stringFrom_literal (items : List Item) (t result : Bytes) :
    stringFrom (Rfc8259.spell items ++ quote :: t) result =
      (Rfc8259.text items).map fun cs => result ++ Rfc8259.utf8 cs := by
  induction items using Rfc8259.text.induct generalizing result with
  | case1 =>
    rw [Rfc8259.text, Option.map_some, Rfc8259.utf8, List.flatMap_nil, List.append_nil]
    exact stringFrom_quote t result
  | case2 c hc items ih =>
    rw [Rfc8259.spell_cons, List.append_assoc, Item.spell, stringFrom_char hc, ih, Rfc8259.text]
    exact text_append _ _ _
  | case3 e items ih =>
    rw [Rfc8259.spell_cons, List.append_assoc, stringFrom_short, ih, Rfc8259.text]
    exact text_append _ _ _
  | case4 u hhigh v items hlow ih =>
    rw [Rfc8259.spell_cons, Rfc8259.spell_cons, List.append_assoc, List.append_assoc, stringFrom_units hhigh hlow, ih,
      Rfc8259.text, if_pos hhigh, if_pos hlow]
    exact text_append _ _ _
  | case5 u hhigh v items hlow =>
    rw [Rfc8259.spell_cons, List.append_assoc, stringFrom_high hhigh, Rfc8259.text, if_pos hhigh, if_neg hlow]
    · rfl
    · intro v' items' heq
      cases heq
      exact Bool.not_eq_true _ ▸ hlow
  | case6 u items hhigh halone =>
    rw [Rfc8259.spell_cons, List.append_assoc, stringFrom_high hhigh, Rfc8259.text.eq_def]
    · dsimp only
      rw [if_pos hhigh]
      split
      · next v items' => exact absurd rfl (halone v items')
      · rfl
    · intro v items' heq
      exact absurd heq (halone v items')
  | case7 u items hhigh hlow =>
    rw [Rfc8259.spell_cons, List.append_assoc, stringFrom_low (Bool.not_eq_true _ ▸ hhigh) hlow, Rfc8259.text.eq_def]
    dsimp only
    rw [if_neg hhigh, if_pos hlow]
    rfl
  | case8 u items hhigh hlow ih =>
    rw [Rfc8259.spell_cons, List.append_assoc, stringFrom_unit (Bool.not_eq_true _ ▸ hhigh) (Bool.not_eq_true _ ▸ hlow), ih,
      Rfc8259.text.eq_def (.unit u :: items)]
    dsimp only
    rw [if_neg hhigh, if_neg hlow]
    exact text_append _ _ _

/-- **`parse_json_string`** of a field whose value is a literal. -/
theorem parseJsonString_of_found {body field rest : Bytes} {items : List Item}
    (hfound : findValueStart body field = some (Rfc8259.literal items ++ rest)) :
    parseJsonString body field = (Rfc8259.text items).map Rfc8259.utf8 := by
  have hshape : Rfc8259.literal items ++ rest = quote :: (Rfc8259.spell items ++ quote :: rest) := by
    rw [Rfc8259.literal, List.cons_append, List.append_assoc, List.singleton_append]
  rw [hshape] at hfound
  unfold parseJsonString
  rw [hfound]
  dsimp only
  rw [if_neg (by decide), stringFrom_literal]
  simp only [List.nil_append]

/-! ## Strings passed over, and keys -/

theorem skipString_plain {b : UInt8} (hquote : (b == quote) = false) (hbackslash : (b == backslash) = false)
    (rest : Bytes) : skipString (b :: rest) = skipString rest := by
  rw [skipString.eq_def]
  dsimp only
  rw [hbackslash, if_neg Bool.false_ne_true, hquote, if_neg Bool.false_ne_true]

theorem skipString_backslash (b : UInt8) (rest : Bytes) : skipString (backslash :: b :: rest) = skipString rest := by
  rw [skipString.eq_def]
  rfl

/-- A key is text without quotes and escapes. -/
def PlainKey (key : Bytes) : Prop := ∀ b ∈ key, b ≠ quote ∧ b ≠ backslash

theorem scanKey_append {field key : Bytes} (hkey : PlainKey key) (rest : Bytes) (isField : Bool) (fieldIdx : Nat)
    (hidx : isField = true → fieldIdx ≤ field.length) :
    scanKey field (key ++ quote :: rest) isField fieldIdx =
      some (isField && decide (field.drop fieldIdx = key), rest) := by
  induction key generalizing isField fieldIdx with
  | nil =>
    rw [List.nil_append, scanKey.eq_def]
    dsimp only
    rw [show (quote == backslash) = false from rfl, if_neg Bool.false_ne_true, BEq.rfl, if_pos rfl]
    congr 2
    cases isField with
    | false => rfl
    | true =>
      have hle := hidx rfl
      rw [Bool.true_and, Bool.true_and, Bool.eq_iff_iff, beq_iff_eq, decide_eq_true_iff, List.drop_eq_nil_iff]
      omega
  | cons b key ih =>
    have hb := hkey b List.mem_cons_self
    have hrest := ih fun c hc => hkey c (List.mem_cons_of_mem _ hc)
    rw [List.cons_append, scanKey.eq_def]
    dsimp only
    rw [beq_eq_false_iff_ne.mpr hb.2, if_neg Bool.false_ne_true, beq_eq_false_iff_ne.mpr hb.1,
      if_neg Bool.false_ne_true]
    cases isField with
    | false =>
      rw [if_neg Bool.false_ne_true, hrest false fieldIdx (fun h => nomatch h)]
      rfl
    | true =>
      rw [if_pos rfl]
      rcases Nat.lt_or_ge fieldIdx field.length with hlt | hge
      · have hdrop := List.drop_eq_getElem_cons hlt
        have hget : field.getD fieldIdx 0 = field[fieldIdx] := List.getD_eq_getElem _ _ hlt
        rw [hrest _ (fieldIdx + 1) (fun _ => hlt), hdrop, hget, decide_eq_false (Nat.not_le.mpr hlt), Bool.false_or]
        congr 2
        rw [Bool.eq_iff_iff]
        simp only [Bool.and_eq_true, Bool.not_eq_true', bne_eq_false_iff_eq, decide_eq_true_eq, List.cons.injEq,
          Bool.true_and]
        constructor
        · rintro ⟨rfl, htail⟩
          exact ⟨rfl, htail⟩
        · rintro ⟨rfl, htail⟩
          exact ⟨rfl, htail⟩
      · rw [hrest _ (fieldIdx + 1) (by simp [hge]), List.drop_eq_nil_of_le hge, decide_eq_true hge]
        simp

end Json

end MojoHttp
