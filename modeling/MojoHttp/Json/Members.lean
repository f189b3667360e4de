import MojoHttp.Json.Numbers

/-!
# The field reader on every JSON text

The locator is a scanner: it builds no tree, skips a container by its depth and a string by its quotes. Its runs are
followed here on the trees of the grammar.

* **`skipDepth_spell`** — what stands between the brackets of a value is passed at the depth it is met at.
* **`skipValue_spell`** — so a value is passed over, up to the byte that ends it.
* **`scanKey_literal`** — a key is the field when it is spelled without escapes and byte for byte.
* **`findValueStart_lookup`** — the locator stands at the first member that is the field.
-/

namespace MojoHttp

namespace Json

open Rfc8259 (Item Tree Ws)

/-! ## Strings are passed over -/

theorem skipString_run {bs : Bytes} (h : ∀ b ∈ bs, b ≠ quote ∧ b ≠ backslash) (t : Bytes) :
    skipString (bs ++ t) = skipString t := by
  induction bs with
  | nil => rfl
  | cons b bs ih =>
    obtain ⟨hquote, hback⟩ := h b List.mem_cons_self
    rw [List.cons_append, skipString_plain (beq_eq_false_iff_ne.mpr hquote) (beq_eq_false_iff_ne.mpr hback),
      ih fun c hc => h c (List.mem_cons_of_mem _ hc)]

theorem char_plain {c : Char} (h : Rfc8259.isUnescaped c = true) :
    ∀ b ∈ String.utf8EncodeChar c, b ≠ quote ∧ b ≠ backslash := by
  intro b hb
  obtain ⟨hquote, hback, -⟩ := Rfc8259.unescaped_bytes h b hb
  exact ⟨hquote, hback⟩

/-- The hexadecimal digits of a code unit. -/
theorem hex_plain (u : Rfc8259.CodeUnit) :
    ∀ b ∈ [u.d0.byte, u.d1.byte, u.d2.byte, u.d3.byte], b ≠ quote ∧ b ≠ backslash := by
  have hall : ∀ b : UInt8, Rfc8259.isHexDigit b = true → b ≠ quote ∧ b ≠ backslash :=
    forall_byte (P := fun b => Rfc8259.isHexDigit b = true → b ≠ quote ∧ b ≠ backslash) (by decide)
  intro b hb
  simp only [List.mem_cons, List.not_mem_nil, or_false] at hb
  rcases hb with rfl | rfl | rfl | rfl
  · exact hall _ u.d0.isHex
  · exact hall _ u.d1.isHex
  · exact hall _ u.d2.isHex
  · exact hall _ u.d3.isHex

theorem skipString_item (item : Item) (t : Bytes) : skipString (item.spell ++ t) = skipString t := by
  cases item with
  | char c h => exact skipString_run (char_plain h) t
  | escape e => exact skipString_backslash e.letter t
  | unit u => exact (skipString_backslash 0x75 _).trans (skipString_run (hex_plain u) t)

/-- **A literal** is passed over, whatever its escapes. -/
theorem skipString_spell (items : List Item) (t : Bytes) : skipString (Rfc8259.spell items ++ quote :: t) = some t := by
  induction items with
  | nil =>
    rw [Rfc8259.spell, List.flatMap_nil, List.nil_append, skipString.eq_def]
    rfl
  | cons item items ih => rw [Rfc8259.spell_cons, List.append_assoc, skipString_item, ih]

/-! ## Containers are passed over -/

/-- A text the loop inside a container passes, at any depth, in no more turns than it has bytes. -/
def Passes (x : Bytes) : Prop := ∀ turns rest depth, ∃ turns', turns ≤ turns' ∧
  skipNested (turns + x.length) (x ++ rest) (depth + 1) = skipNested turns' rest (depth + 1)

theorem passes_nil : Passes [] := fun turns _ _ => ⟨turns, Nat.le_refl _, rfl⟩

theorem Passes.append {x y : Bytes} (hx : Passes x) (hy : Passes y) : Passes (x ++ y) := by
  intro turns rest depth
  obtain ⟨turns₁, hle₁, h₁⟩ := hx (turns + y.length) (y ++ rest) depth
  obtain ⟨turns₂, hle₂, h₂⟩ := hy (turns₁ - y.length) rest depth
  refine ⟨turns₂, by omega, ?_⟩
  rw [List.length_append, List.append_assoc, show turns + (x.length + y.length) = turns + y.length + x.length from by omega,
    h₁, ← h₂, show turns₁ - y.length + y.length = turns₁ from by omega]

/-- A byte that is neither a quote nor a bracket. -/
def isNeutral (b : UInt8) : Bool := b != quote && b != 0x7B && b != 0x5B && b != 0x7D && b != 0x5D

theorem passes_neutral {bs : Bytes} (h : ∀ b ∈ bs, isNeutral b = true) : Passes bs := by
  induction bs with
  | nil => exact passes_nil
  | cons b bs ih =>
    have hb := h b List.mem_cons_self
    simp only [isNeutral, Bool.and_eq_true, bne_iff_ne, ne_eq] at hb
    obtain ⟨⟨⟨⟨hquote, hbrace⟩, hbracket⟩, hbraceEnd⟩, hbracketEnd⟩ := hb
    have hone : Passes [b] := by
      intro turns rest depth
      refine ⟨turns, Nat.le_refl _, ?_⟩
      show skipNested (turns + 1) (b :: rest) (depth + 1) = _
      rw [skipNested.eq_def]
      simp [hquote, hbrace, hbracket, hbraceEnd, hbracketEnd]
    exact hone.append (ih fun c hc => h c (List.mem_cons_of_mem _ hc))

theorem passes_literal (items : List Item) : Passes (Rfc8259.literal items) := by
  intro turns rest depth
  have hshape : Rfc8259.literal items ++ rest = quote :: (Rfc8259.spell items ++ quote :: rest) := by
    rw [Rfc8259.literal, List.cons_append, List.append_assoc, List.singleton_append]
  refine ⟨turns + (Rfc8259.spell items ++ [0x22]).length, Nat.le_add_right _ _, ?_⟩
  rw [hshape, Rfc8259.literal, List.length_cons, ← Nat.add_assoc, skipNested.eq_def]
  dsimp only
  rw [if_neg (by simp), if_pos (by rfl), skipString_spell]

/-- Brackets around a text that is passed. -/
theorem Passes.bracketed {x : Bytes} (hx : Passes x) {opening closing : UInt8}
    (h : (opening = 0x7B ∧ closing = 0x7D) ∨ (opening = 0x5B ∧ closing = 0x5D)) :
    Passes (opening :: (x ++ [closing])) := by
  intro turns rest depth
  obtain ⟨turns₁, hle, hpass⟩ := hx (turns + 1) (closing :: rest) (depth + 1)
  refine ⟨turns₁ - 1, by omega, ?_⟩
  have hopen : skipNested (turns + (opening :: (x ++ [closing])).length) (opening :: (x ++ [closing]) ++ rest)
      (depth + 1) = skipNested (turns + 1 + x.length) (x ++ closing :: rest) (depth + 1 + 1) := by
    rw [List.cons_append, List.append_assoc, List.singleton_append, List.length_cons, List.length_append,
      List.length_singleton, show turns + (x.length + 1 + 1) = turns + 1 + x.length + 1 from by omega, skipNested.eq_def]
    rcases h with ⟨rfl, rfl⟩ | ⟨rfl, rfl⟩
    · rfl
    · rfl
  have hclose : skipNested (turns₁ - 1 + 1) (closing :: rest) (depth + 1 + 1) = skipNested (turns₁ - 1) rest (depth + 1) := by
    rw [skipNested.eq_def]
    rcases h with ⟨rfl, rfl⟩ | ⟨rfl, rfl⟩
    · rfl
    · rfl
  rw [hopen, hpass, ← hclose, show turns₁ - 1 + 1 = turns₁ from by omega]

theorem neutral_ws (w : Ws) : ∀ b ∈ w.val, isNeutral b = true := by
  have hall : ∀ b : UInt8, Rfc8259.isWs b = true → isNeutral b = true :=
    forall_byte (P := fun b => Rfc8259.isWs b = true → isNeutral b = true) (by decide)
  exact fun b hb => hall b (w.property b hb)

/-- The bytes of a number. -/
def isNumberByte (b : UInt8) : Bool := isDigit b || b == 0x2D || b == 0x2E || b == 0x65 || b == 0x45 || b == 0x2B

theorem numberBytes (n : Rfc8259.Number) : ∀ b ∈ n.spell, isNumberByte b = true := by
  have hdigit : ∀ {b : UInt8}, isDigit b = true → isNumberByte b = true := by
    intro b hb
    rw [isNumberByte, hb]
    rfl
  intro b hb
  unfold Rfc8259.Number.spell at hb
  rcases List.mem_append.mp hb with hminus | hb
  · split at hminus
    · rw [List.mem_singleton.mp hminus]
      decide
    · exact absurd hminus List.not_mem_nil
  rcases List.mem_append.mp hb with hint | hb
  · exact hdigit (isDigit_int n.isInt b hint)
  rcases List.mem_append.mp hb with hfrac | hexp
  · rcases n.isFrac with hnone | ⟨ds, hds, hsome⟩
    · rw [hnone] at hfrac
      exact absurd hfrac List.not_mem_nil
    · rw [hsome] at hfrac
      rcases List.mem_cons.mp hfrac with rfl | hmem
      · decide
      · exact hdigit (hds.2 b hmem)
  · rcases n.isExp with hnone | ⟨e, sign, ds, he, hsign, hds, hsome⟩
    · rw [hnone] at hexp
      exact absurd hexp List.not_mem_nil
    · rw [hsome] at hexp
      rcases List.mem_cons.mp hexp with rfl | hmem
      · rcases he with rfl | rfl
        · decide
        · decide
      rcases List.mem_append.mp hmem with hmem | hmem
      · rcases hsign with rfl | rfl | rfl
        · exact absurd hmem List.not_mem_nil
        · rw [List.mem_singleton.mp hmem]
          decide
        · rw [List.mem_singleton.mp hmem]
          decide
      · exact hdigit (hds.2 b hmem)

theorem numberByte_inside (b : UInt8) : isNumberByte b = true → isNeutral b = true ∧
    (!(b == 0x2C || b == 0x7D || b == 0x5D || isWs b)) = true :=
  forall_byte (P := fun b => isNumberByte b = true → isNeutral b = true ∧
    (!(b == 0x2C || b == 0x7D || b == 0x5D || isWs b)) = true) (by decide) b

/-- **What stands between the brackets of a value** is passed. -/
theorem passes_spell {k : Rfc8259.Kind} (t : Tree k) : Passes t.spell := by
  have hcomma : Passes [0x2C] := passes_neutral (by decide)
  have hcolon : Passes [0x3A] := passes_neutral (by decide)
  have hws : ∀ w : Ws, Passes w.val := fun w => passes_neutral (neutral_ws w)
  induction t with
  | null => exact passes_neutral (by decide)
  | bool b =>
    cases b
    · exact passes_neutral (by decide)
    · exact passes_neutral (by decide)
  | number n => exact passes_neutral fun b hb => (numberByte_inside b (numberBytes n b hb)).1
  | string items => exact passes_literal items
  | emptyArray w => exact (hws w).bracketed (Or.inr ⟨rfl, rfl⟩)
  | array es ih => exact ih.bracketed (Or.inr ⟨rfl, rfl⟩)
  | emptyObject w => exact (hws w).bracketed (Or.inl ⟨rfl, rfl⟩)
  | object ms ih => exact ih.bracketed (Or.inl ⟨rfl, rfl⟩)
  | element before v after ih => exact (hws before).append (ih.append (hws after))
  | elements before v after rest ih ihRest =>
    exact (hws before).append (ih.append ((hws after).append (hcomma.append ihRest)))
  | member before key behindKey beforeValue v after ih =>
    exact (hws before).append ((passes_literal key).append ((hws behindKey).append (hcolon.append
      ((hws beforeValue).append (ih.append (hws after))))))
  | members before key behindKey beforeValue v after rest ih ihRest =>
    exact (hws before).append ((passes_literal key).append ((hws behindKey).append (hcolon.append
      ((hws beforeValue).append (ih.append ((hws after).append (hcomma.append ihRest)))))))

/-! ## A value is passed over -/

/-- A container, from its opening bracket. -/
theorem skipValue_bracketed {x : Bytes} (hx : Passes x) {opening closing : UInt8}
    (h : (opening = 0x7B ∧ closing = 0x7D) ∨ (opening = 0x5B ∧ closing = 0x5D)) (rest : Bytes) :
    skipValue (opening :: (x ++ [closing]) ++ rest) = some rest := by
  obtain ⟨turns, hle, hpass⟩ := hx (rest.length + 2) (closing :: rest) 0
  have hopen : skipValue (opening :: (x ++ [closing]) ++ rest) =
      skipNested (rest.length + 2 + x.length) (x ++ closing :: rest) (0 + 1) := by
    rw [List.cons_append, List.append_assoc, List.singleton_append]
    rw [show rest.length + 2 + x.length = (x ++ closing :: rest).length + 1 from by
      rw [List.length_append, List.length_cons]
      omega]
    rcases h with ⟨rfl, rfl⟩ | ⟨rfl, rfl⟩
    · rfl
    · rfl
  obtain ⟨turns, rfl⟩ : ∃ n, turns = n + 2 := ⟨turns - 2, by omega⟩
  rw [hopen, hpass, skipNested.eq_def]
  rcases h with ⟨rfl, rfl⟩ | ⟨rfl, rfl⟩
  · rfl
  · rfl

/-- A literal name or a number: up to the byte that ends it. -/
theorem skipValue_scalar {b : UInt8} {t rest : Bytes} (hneutral : isNeutral b = true)
    (hinside : ∀ c ∈ b :: t, (!(c == 0x2C || c == 0x7D || c == 0x5D || isWs c)) = true)
    (hends : endsAValue rest = true) : skipValue (b :: t ++ rest) = some rest := by
  simp only [isNeutral, Bool.and_eq_true, bne_iff_ne, ne_eq] at hneutral
  obtain ⟨⟨⟨⟨hquote, hbrace⟩, hbracket⟩, -⟩, -⟩ := hneutral
  have hopening : ¬(b == 0x7B || b == 0x5B) = true := by
    rw [Bool.or_eq_true, beq_iff_eq, beq_iff_eq]
    rintro (hb | hb)
    · exact hbrace hb
    · exact hbracket hb
  rw [List.cons_append]
  unfold skipValue
  dsimp only
  rw [if_neg (mt beq_iff_eq.mp hquote), if_neg hopening, ← List.cons_append, List.dropWhile_append_of_pos hinside]
  cases rest with
  | nil => rfl
  | cons c rest =>
    have hstop : (c == 0x2C || c == 0x7D || c == 0x5D || isWs c) = true := by
      have hc : (isWs c || c == 0x2C || c == 0x7D || c == 0x5D) = true := hends
      simp only [Bool.or_eq_true] at hc ⊢
      tauto
    rw [List.dropWhile_cons_of_neg (by rw [hstop]; decide)]

/-- **A value** is passed over, up to the byte that ends it. -/
theorem skipValue_spell (v : Tree .value) {rest : Bytes} (hends : endsAValue rest = true) :
    skipValue (v.spell ++ rest) = some rest := by
  cases v with
  | null => exact skipValue_scalar (b := 0x6E) (by decide) (by decide) hends
  | bool b =>
    cases b with
    | true => exact skipValue_scalar (b := 0x74) (by decide) (by decide) hends
    | false => exact skipValue_scalar (b := 0x66) (by decide) (by decide) hends
  | number n =>
    obtain ⟨b, t, hbt, -⟩ := spell_number n
    have hbytes := numberBytes n
    rw [hbt] at hbytes
    show skipValue (n.spell ++ rest) = _
    rw [hbt]
    exact skipValue_scalar (numberByte_inside b (hbytes b List.mem_cons_self)).1
      (fun c hc => (numberByte_inside c (hbytes c hc)).2) hends
  | string items =>
    show skipValue (Rfc8259.literal items ++ rest) = _
    rw [Rfc8259.literal, List.cons_append, List.append_assoc, List.singleton_append]
    exact skipString_spell items rest
  | emptyArray w => exact skipValue_bracketed (passes_neutral (neutral_ws w)) (Or.inr ⟨rfl, rfl⟩) rest
  | array es => exact skipValue_bracketed (passes_spell es) (Or.inr ⟨rfl, rfl⟩) rest
  | emptyObject w => exact skipValue_bracketed (passes_neutral (neutral_ws w)) (Or.inl ⟨rfl, rfl⟩) rest
  | object ms => exact skipValue_bracketed (passes_spell ms) (Or.inl ⟨rfl, rfl⟩) rest

/-! ## Keys -/

/-- A key spelled without escapes. -/
def isPlain (key : List Item) : Bool :=
  key.all fun item => match item with
    | .char _ _ => true
    | _ => false

/-- The locator's notion of a key: no escape in it, and the field byte for byte. -/
def isField (field : Bytes) (key : List Item) : Bool := isPlain key && Rfc8259.spell key == field

theorem scanKey_plainByte {field : Bytes} {b : UInt8} (hquote : b ≠ quote) (hback : b ≠ backslash) (t : Bytes)
    (fieldIdx : Nat) : scanKey field (b :: t) false fieldIdx = scanKey field t false fieldIdx := by
  rw [scanKey.eq_def]
  dsimp only
  rw [if_neg (mt beq_iff_eq.mp hback), if_neg (mt beq_iff_eq.mp hquote), if_neg Bool.false_ne_true]

theorem scanKey_run {field bs : Bytes} (h : ∀ b ∈ bs, b ≠ quote ∧ b ≠ backslash) (t : Bytes) (fieldIdx : Nat) :
    scanKey field (bs ++ t) false fieldIdx = scanKey field t false fieldIdx := by
  induction bs with
  | nil => rfl
  | cons b bs ih =>
    obtain ⟨hquote, hback⟩ := h b List.mem_cons_self
    rw [List.cons_append, scanKey_plainByte hquote hback, ih fun c hc => h c (List.mem_cons_of_mem _ hc)]

/-- An escape ends the match. -/
theorem scanKey_backslash (field : Bytes) (b : UInt8) (t : Bytes) (matches' : Bool) (fieldIdx : Nat) :
    scanKey field (backslash :: b :: t) matches' fieldIdx = scanKey field t false fieldIdx := by
  rw [scanKey.eq_def]
  rfl

theorem scanKey_item (field : Bytes) (item : Item) (t : Bytes) (fieldIdx : Nat) :
    scanKey field (item.spell ++ t) false fieldIdx = scanKey field t false fieldIdx := by
  cases item with
  | char c h => exact scanKey_run (char_plain h) t fieldIdx
  | escape e => exact scanKey_backslash field e.letter t false fieldIdx
  | unit u => exact (scanKey_backslash field 0x75 _ false fieldIdx).trans (scanKey_run (hex_plain u) t fieldIdx)

/-- A key that has failed stays so up to its closing quote. -/
theorem scanKey_failed (field : Bytes) (key : List Item) (t : Bytes) (fieldIdx : Nat) :
    scanKey field (Rfc8259.spell key ++ quote :: t) false fieldIdx = some (false, t) := by
  induction key with
  | nil =>
    rw [Rfc8259.spell, List.flatMap_nil, List.nil_append, scanKey.eq_def]
    rfl
  | cons item key ih => rw [Rfc8259.spell_cons, List.append_assoc, scanKey_item, ih]

/-- Bytes of a key in front of anything: whether it still matches, and where. -/
theorem scanKey_bytes (field : Bytes) {bs : Bytes} (h : ∀ b ∈ bs, b ≠ quote ∧ b ≠ backslash) (t : Bytes) (matches' : Bool)
    (fieldIdx : Nat) : ∃ still idx, scanKey field (bs ++ t) matches' fieldIdx = scanKey field t still idx := by
  induction bs generalizing matches' fieldIdx with
  | nil => exact ⟨matches', fieldIdx, rfl⟩
  | cons b bs ih =>
    obtain ⟨hquote, hback⟩ := h b List.mem_cons_self
    rw [List.cons_append, scanKey.eq_def]
    dsimp only
    rw [if_neg (mt beq_iff_eq.mp hback), if_neg (mt beq_iff_eq.mp hquote)]
    split
    · exact ih (fun c hc => h c (List.mem_cons_of_mem _ hc)) _ _
    · exact ih (fun c hc => h c (List.mem_cons_of_mem _ hc)) _ _

/-- A key with an escape is no field. -/
theorem scanKey_escaped (field : Bytes) {key : List Item} (h : isPlain key = false) (t : Bytes) (matches' : Bool)
    (fieldIdx : Nat) : scanKey field (Rfc8259.spell key ++ quote :: t) matches' fieldIdx = some (false, t) := by
  induction key generalizing matches' fieldIdx with
  | nil => cases h
  | cons item key ih =>
    rw [Rfc8259.spell_cons, List.append_assoc]
    cases item with
    | char c hc =>
      have hrest : isPlain key = false := h
      obtain ⟨still, idx, hbytes⟩ := scanKey_bytes field (char_plain hc) (Rfc8259.spell key ++ quote :: t) matches'
        fieldIdx
      exact hbytes.trans (ih hrest still idx)
    | escape e =>
      exact (scanKey_backslash field e.letter _ matches' fieldIdx).trans (scanKey_failed field key t fieldIdx)
    | unit u =>
      refine (scanKey_backslash field 0x75 _ matches' fieldIdx).trans ?_
      exact (scanKey_run (hex_plain u) _ fieldIdx).trans (scanKey_failed field key t fieldIdx)

theorem plainKey_spell {key : List Item} (h : isPlain key = true) : PlainKey (Rfc8259.spell key) := by
  induction key with
  | nil => exact fun b hb => absurd hb List.not_mem_nil
  | cons item key ih =>
    cases item with
    | char c hc =>
      have hrest : isPlain key = true := h
      intro b hb
      rw [Rfc8259.spell_cons] at hb
      rcases List.mem_append.mp hb with hb | hb
      · exact char_plain hc b hb
      · exact ih hrest b hb
    | escape e => cases h
    | unit u => cases h

/-- **A key** is the field when it is spelled without escapes and byte for byte. -/
theorem scanKey_literal (field : Bytes) (key : List Item) (t : Bytes) :
    scanKey field (Rfc8259.spell key ++ quote :: t) true 0 = some (isField field key, t) := by
  unfold isField
  cases hplain : isPlain key with
  | false => exact scanKey_escaped field hplain t true 0
  | true =>
    rw [scanKey_append (plainKey_spell hplain) t true 0 fun _ => Nat.zero_le _, List.drop_zero, Bool.true_and,
      Bool.true_and]
    congr 2
    rw [Bool.eq_iff_iff, decide_eq_true_iff, beq_iff_eq]
    exact eq_comm

/-! ## The members -/

theorem dropWhile_ws (w : Ws) {b : UInt8} (hb : isWs b = false) (t : Bytes) :
    (w.val ++ b :: t).dropWhile isWs = b :: t := by
  have hw : ∀ c ∈ w.val, isWs c = true := w.property
  rw [List.dropWhile_append_of_pos hw, List.dropWhile_cons_of_neg (by rw [hb]; exact Bool.false_ne_true)]

/-- A value starts with a byte that is no whitespace. -/
theorem spell_head (v : Tree .value) : ∃ b t, v.spell = b :: t ∧ isWs b = false := by
  cases v with
  | null => exact ⟨_, _, rfl, rfl⟩
  | bool b =>
    cases b
    · exact ⟨_, _, rfl, rfl⟩
    · exact ⟨_, _, rfl, rfl⟩
  | number n =>
    obtain ⟨b, t, hbt, hfirst⟩ := spell_number n
    have hdigit : ∀ b : UInt8, isDigit b = true → isWs b = false :=
      forall_byte (P := fun b => isDigit b = true → isWs b = false) (by decide)
    refine ⟨b, t, hbt, ?_⟩
    rcases hfirst with rfl | hb
    · rfl
    · exact hdigit b hb
  | string items => exact ⟨_, _, rfl, rfl⟩
  | emptyArray w => exact ⟨_, _, rfl, rfl⟩
  | array es => exact ⟨_, _, rfl, rfl⟩
  | emptyObject w => exact ⟨_, _, rfl, rfl⟩
  | object ms => exact ⟨_, _, rfl, rfl⟩

theorem endsAValue_ws (w : Ws) {d : UInt8} (hd : endsAValue [d] = true) (t : Bytes) :
    endsAValue (w.val ++ d :: t) = true := by
  obtain ⟨w, hw⟩ := w
  cases w with
  | nil => exact hd
  | cons c w =>
    have hc : isWs c = true := hw c List.mem_cons_self
    show (isWs c || c == 0x2C || c == 0x7D || c == 0x5D) = true
    rw [hc]
    rfl

/-- One turn of the locator: the member is the field, or is passed over up to the byte behind it. -/
theorem findField_turn (field : Bytes) (turns : Nat) (before : Ws) (key : List Item) (behindKey beforeValue : Ws)
    (v : Tree .value) (after : Ws) {d : UInt8} (hd : endsAValue [d] = true) (hdws : isWs d = false) (rest : Bytes) :
    findField field (turns + 1) (before.val ++ (Rfc8259.literal key ++ (behindKey.val ++ 0x3A ::
      (beforeValue.val ++ (v.spell ++ (after.val ++ d :: rest)))))) =
      if isField field key then some (v.spell ++ (after.val ++ d :: rest))
      else if d == 0x7D then none else if d != 0x2C then none else findField field turns rest := by
  obtain ⟨b, t, hbt, hb⟩ := spell_head v
  have hends := endsAValue_ws after hd rest
  have hkey : ∀ x, Rfc8259.literal key ++ x = quote :: (Rfc8259.spell key ++ quote :: x) := by
    intro x
    rw [Rfc8259.literal, List.cons_append, List.append_assoc, List.singleton_append]
  have hvalue : (beforeValue.val ++ (v.spell ++ (after.val ++ d :: rest))).dropWhile isWs =
      v.spell ++ (after.val ++ d :: rest) := by
    rw [hbt]
    exact dropWhile_ws beforeValue hb _
  have hnonempty : (v.spell ++ (after.val ++ d :: rest)).isEmpty = false := by
    rw [hbt]
    rfl
  rw [hkey, findField, dropWhile_ws before (by rfl)]
  dsimp only
  rw [if_neg (by decide), if_neg (by decide), scanKey_literal]
  dsimp only
  rw [dropWhile_ws behindKey (by rfl)]
  dsimp only
  rw [if_neg (by decide), hvalue, hnonempty, if_neg Bool.false_ne_true, skipValue_spell v hends]
  dsimp only
  rw [dropWhile_ws after hdws]

/-- What the locator found: the value of a member, with a byte behind it that ends a value; or nothing. -/
def Stands (found : Option Bytes) : Option (Tree .value) → Prop
  | none => found = none
  | some v => ∃ rest, found = some (v.spell ++ rest) ∧ endsAValue rest = true

/-- **The members of an object**, in order. -/
theorem findField_find (field : Bytes) (ms : Tree .members) {turns : Nat} (hturns : ms.spell.length < turns)
    (rest : Bytes) : Stands (findField field turns (ms.spell ++ 0x7D :: rest)) (ms.find (isField field)) := by
  induction ms using Tree.membersInduction generalizing turns with
  | member before key behindKey beforeValue v after =>
    obtain ⟨turns, rfl⟩ : ∃ n, turns = n + 1 := ⟨turns - 1, by omega⟩
    have hturn := findField_turn field turns before key behindKey beforeValue v after (d := 0x7D) rfl rfl rest
    have hshape : (Tree.member before key behindKey beforeValue v after).spell ++ 0x7D :: rest =
        before.val ++ (Rfc8259.literal key ++ (behindKey.val ++ 0x3A ::
          (beforeValue.val ++ (v.spell ++ (after.val ++ 0x7D :: rest))))) := by
      simp only [Tree.spell, List.append_assoc, List.cons_append]
    rw [hshape, hturn, Tree.find]
    cases isField field key with
    | true => exact ⟨after.val ++ 0x7D :: rest, rfl, endsAValue_ws after rfl rest⟩
    | false => rfl
  | members before key behindKey beforeValue v after more ih =>
    obtain ⟨turns, rfl⟩ : ∃ n, turns = n + 1 := ⟨turns - 1, by omega⟩
    have hturn := findField_turn field turns before key behindKey beforeValue v after (d := 0x2C) rfl rfl
      (more.spell ++ 0x7D :: rest)
    have hshape : (Tree.members before key behindKey beforeValue v after more).spell ++ 0x7D :: rest =
        before.val ++ (Rfc8259.literal key ++ (behindKey.val ++ 0x3A ::
          (beforeValue.val ++ (v.spell ++ (after.val ++ 0x2C :: (more.spell ++ 0x7D :: rest)))))) := by
      simp only [Tree.spell, List.append_assoc, List.cons_append]
    have hmore : more.spell.length < turns := by
      simp only [Tree.spell, List.length_append, List.length_cons] at hturns
      omega
    rw [hshape, hturn, Tree.find]
    cases isField field key with
    | true => exact ⟨after.val ++ 0x2C :: (more.spell ++ 0x7D :: rest), rfl, endsAValue_ws after rfl _⟩
    | false => exact ih hmore

/-- **The locator stands at the first member that is the field**, in every JSON text. -/
theorem findValueStart_lookup (before after : Ws) (v : Tree .value) (field : Bytes) :
    Stands (findValueStart (before.val ++ (v.spell ++ after.val)) field) (v.lookup (isField field)) := by
  obtain ⟨b, t, hbt, hb⟩ := spell_head v
  have hstart : (before.val ++ (v.spell ++ after.val)).dropWhile isWs = v.spell ++ after.val := by
    rw [hbt]
    exact dropWhile_ws before hb _
  unfold findValueStart
  rw [hstart]
  cases v with
  | object ms =>
    have hshape : (Tree.object ms).spell ++ after.val = 0x7B :: (ms.spell ++ 0x7D :: after.val) := by
      rw [Tree.spell, List.cons_append, List.append_assoc, List.singleton_append]
    rw [hshape]
    exact findField_find field ms (by rw [List.length_append, List.length_cons]; omega) after.val
  | emptyObject w =>
    have hshape : (Tree.emptyObject w).spell ++ after.val = 0x7B :: (w.val ++ 0x7D :: after.val) := by
      rw [Tree.spell, List.cons_append, List.append_assoc, List.singleton_append]
    rw [hshape]
    dsimp only
    rw [if_neg (by decide), findField, dropWhile_ws w (by rfl)]
    rfl
  | null => rfl
  | bool b =>
    cases b
    · rfl
    · rfl
  | number n =>
    obtain ⟨b, t, hbt, hfirst⟩ := spell_number n
    have hbrace : (b != 0x7B) = true := by
      rw [bne_iff_ne]
      rintro rfl
      rcases hfirst with hminus | hdigit
      · exact absurd hminus (by decide)
      · exact absurd hdigit (by decide)
    rw [show (Tree.number n).spell = n.spell from rfl, hbt]
    exact if_pos hbrace
  | string items => rfl
  | emptyArray w => rfl
  | array es => rfl

/-! ## The readers -/

section Found

variable {body field rest : Bytes} {v : Tree .value} (hfound : findValueStart body field = some (v.spell ++ rest))

include hfound

theorem parseJsonString_value : parseJsonString body field = stringOf v := by
  cases v with
  | string items => exact parseJsonString_of_found hfound
  | number n =>
    obtain ⟨b, t, hbt, hfirst⟩ := spell_number n
    have hquote : (b != quote) = true := by
      rw [bne_iff_ne]
      rintro rfl
      rcases hfirst with hminus | hdigit
      · exact absurd hminus (by decide)
      · exact absurd hdigit (by decide)
    rw [show (Tree.number n).spell = n.spell from rfl, hbt] at hfound
    unfold parseJsonString
    rw [hfound]
    exact if_pos hquote
  | bool b =>
    unfold parseJsonString
    rw [hfound]
    cases b
    · rfl
    · rfl
  | _ =>
    unfold parseJsonString
    rw [hfound]
    rfl

end Found

/-- **Every reader returns the first member that is the field**, read as what was asked for, and nothing where it is
not that or where there is none. -/
theorem readers_lookup (before after : Ws) (v : Tree .value) (field : Bytes) :
    let body := before.val ++ (v.spell ++ after.val)
    let found := v.lookup (isField field)
    hasJsonField body field = found.isSome ∧
      parseJsonString body field = found.bind stringOf ∧
      parseJsonField body field = (found.bind stringOf).getD [] ∧
      parseJsonInt body field = found.bind intOf ∧
      parseJsonBool body field = found.bind boolOf ∧
      ∀ (Float64 : Type) (float64 : Bytes → Option Float64),
        parseJsonNumber float64 body field = (found.bind numberOf).bind float64 := by
  intro body found
  have hstands : Stands (findValueStart body field) found := findValueStart_lookup before after v field
  cases hlookup : found with
  | none =>
    rw [hlookup] at hstands
    have hnone : findValueStart body field = none := hstands
    unfold hasJsonField parseJsonField parseJsonString parseJsonInt parseJsonBool parseJsonNumber
    rw [hnone]
    exact ⟨rfl, rfl, rfl, rfl, rfl, fun _ _ => rfl⟩
  | some value =>
    rw [hlookup] at hstands
    obtain ⟨rest, hfound, hends⟩ := hstands
    have hstring := parseJsonString_value hfound
    refine ⟨?_, hstring, ?_, parseJsonInt_of_found hfound hends, parseJsonBool_of_found hfound hends,
      fun _ float64 => parseJsonNumber_of_found hfound hends float64⟩
    · rw [hasJsonField, hfound]
      rfl
    · rw [parseJsonField, hstring]
      rfl

/-- The object of one member `a` that is 1, its key spelled by the code unit. -/
def escapedKey : Tree .value :=
  .object (.member ⟨[], by decide⟩
    [.unit ⟨⟨0x30, by decide⟩, ⟨0x30, by decide⟩, ⟨0x36, by decide⟩, ⟨0x31, by decide⟩⟩]
    ⟨[], by decide⟩ ⟨[], by decide⟩
    (.number ⟨false, [0x31], [], [], Or.inr ⟨⟨by decide, by decide⟩, by decide⟩, Or.inl rfl, Or.inl rfl⟩)
    ⟨[], by decide⟩)

/-- **A key spelled with an escape is passed over**, though it stands for the key that was asked for. -/
theorem escaped_key_passed : ¬∀ (v : Tree .value) (cs : List Char),
    parseJsonInt v.spell (Rfc8259.utf8 cs) = (v.lookup fun key => Rfc8259.text key == some cs).bind intOf := by
  intro hall
  have hone : (escapedKey.lookup fun key => Rfc8259.text key == some ['a']).bind intOf = some 1 := by decide
  have hread : parseJsonInt escapedKey.spell (Rfc8259.utf8 ['a']) = none := by decide
  rw [hall escapedKey ['a'], hone] at hread
  cases hread

end Json

end MojoHttp
