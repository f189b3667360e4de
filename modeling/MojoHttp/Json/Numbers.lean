import MojoHttp.Json.Strings

/-!
# Numbers and literals out of a JSON object (`json_parse.mojo`)

An offset is the text behind it, as in the locator.

* **`scanJsonNumber_number`** — the scan passes a number of the grammar, and as an integer only one without fraction
  and exponent.
* **`accumulate_eq`** — the digits add up to the integer they write, or to nothing past the machine's range.
-/

namespace MojoHttp

namespace Json

/-- `_is_digit`. -/
def isDigit (b : UInt8) : Bool := decide (b ≥ 0x30) && decide (b ≤ 0x39)

/-- `_skip_digits`. -/
def skipDigits (text : Bytes) : Bytes := text.dropWhile isDigit

/-- `_ends_a_value`. -/
def endsAValue : Bytes → Bool
  | [] => true
  | c :: _ => isWs c || c == 0x2C || c == 0x7D || c == 0x5D

/-- The first byte is a digit. -/
def digitAhead : Bytes → Bool
  | [] => false
  | b :: _ => isDigit b

/-- The text behind its first byte where that is one of `cs`. -/
def skipOne (cs : Bytes) : Bytes → Bytes
  | [] => []
  | b :: rest => if cs.contains b then rest else b :: rest

/-- The optional fraction of `_scan_json_number`. -/
def scanFraction : Bytes → Option Bytes
  | [] => some []
  | b :: rest =>
    if b == 0x2E then if digitAhead rest then some (skipDigits rest) else none
    else some (b :: rest)

/-- The optional exponent. -/
def scanExponent : Bytes → Option Bytes
  | [] => some []
  | b :: rest =>
    if b == 0x65 || b == 0x45 then
      let rest := skipOne [0x2B, 0x2D] rest
      if digitAhead rest then some (skipDigits rest) else none
    else some (b :: rest)

/-- `_scan_json_number`; `none` is -1. -/
def scanJsonNumber (text : Bytes) (integer : Bool) : Option Bytes :=
  match skipOne [0x2D] text with
  | [] => none
  | b :: rest =>
    if !isDigit b then none
    else
      let text := if b == 0x30 then rest else skipDigits (b :: rest)
      let stop := if integer then some text else (scanFraction text).bind scanExponent
      match stop with
      | none => none
      | some text => if !endsAValue text then none else some text

/-- `comptime CUTOFF`. -/
def CUTOFF : Int64 := -922337203685477580

/-- `while i < end`, downwards. -/
def accumulate : Bytes → (result : Int64) → Option Int64
  | [], result => some result
  | b :: rest, result =>
    let d := Int64.ofNat b.toNat - 0x30
    if result < CUTOFF || (result == CUTOFF && d > 8) then none else accumulate rest (result * 10 - d)

/-- `parse_json_int`. -/
def parseJsonInt (body field : Bytes) : Option Int64 :=
  match findValueStart body field with
  | none => none
  | some text =>
    match scanJsonNumber text true with
    | none => none
    | some stop =>
      let span := text.take (text.length - stop.length)
      let negative := span.getD 0 0 == 0x2D
      match accumulate (if negative then span.drop 1 else span) 0 with
      | none => none
      | some result =>
        if negative then some result
        else if result == -9223372036854775807 - 1 then none
        else some (-result)

/-- `parse_json_number`, for the conversion `Float64(text)`. -/
def parseJsonNumber {Float64 : Type} (float64 : Bytes → Option Float64) (body field : Bytes) : Option Float64 :=
  match findValueStart body field with
  | none => none
  | some text =>
    match scanJsonNumber text false with
    | none => none
    | some stop => float64 (text.take (text.length - stop.length))

/-- `parse_json_bool`. -/
def parseJsonBool (body field : Bytes) : Option Bool :=
  match findValueStart body field with
  | none => none
  | some (0x74 :: 0x72 :: 0x75 :: 0x65 :: rest) => if endsAValue rest then some true else none
  | some (0x66 :: 0x61 :: 0x6C :: 0x73 :: 0x65 :: rest) => if endsAValue rest then some false else none
  | some _ => none

/-- `parse_json_field`. -/
def parseJsonField (body field : Bytes) : Bytes := (parseJsonString body field).getD []

/-! ## The scan -/

open Rfc8259 (Number IsDigits IsInt IsFrac IsExp Tree)

/-- A byte a value may end at starts no further part of a number. -/
theorem delimiter_byte (c : UInt8) : (isWs c || c == 0x2C || c == 0x7D || c == 0x5D) = true →
    isDigit c = false ∧ (c == 0x2E) = false ∧ (c == 0x65 || c == 0x45) = false :=
  forall_byte (P := fun c => (isWs c || c == 0x2C || c == 0x7D || c == 0x5D) = true →
    isDigit c = false ∧ (c == 0x2E) = false ∧ (c == 0x65 || c == 0x45) = false) (by decide) c

theorem digitAhead_of_ends {rest : Bytes} (h : endsAValue rest = true) : digitAhead rest = false := by
  cases rest with
  | nil => rfl
  | cons c rest => exact (delimiter_byte c h).1

theorem skipDigits_append {ds rest : Bytes} (hds : ∀ b ∈ ds, isDigit b = true) (hrest : digitAhead rest = false) :
    skipDigits (ds ++ rest) = rest := by
  rw [skipDigits, List.dropWhile_append_of_pos hds]
  cases rest with
  | nil => rfl
  | cons c rest => exact List.dropWhile_cons_of_neg (by rw [show isDigit c = false from hrest]; exact Bool.false_ne_true)

theorem digitAhead_append {ds : Bytes} (hds : IsDigits ds) (rest : Bytes) : digitAhead (ds ++ rest) = true := by
  obtain ⟨hne, hall⟩ := hds
  cases ds with
  | nil => exact absurd rfl hne
  | cons d ds => exact hall d List.mem_cons_self

theorem scanFraction_append {t rest : Bytes} (h : IsFrac t) (hdigit : digitAhead rest = false)
    (hpoint : rest.head? ≠ some 0x2E) : scanFraction (t ++ rest) = some rest := by
  rcases h with rfl | ⟨ds, hds, rfl⟩
  · rw [List.nil_append]
    cases rest with
    | nil => rfl
    | cons c rest =>
      rw [scanFraction, if_neg]
      intro hc
      exact hpoint (congrArg some (beq_iff_eq.mp hc))
  · rw [List.cons_append, scanFraction, if_pos (by decide), digitAhead_append hds, if_pos rfl,
      skipDigits_append hds.2 hdigit]

theorem scanExponent_append {t rest : Bytes} (h : IsExp t) (hends : endsAValue rest = true) :
    scanExponent (t ++ rest) = some rest := by
  rcases h with rfl | ⟨e, sign, ds, he, hsign, hds, rfl⟩
  · rw [List.nil_append]
    cases rest with
    | nil => rfl
    | cons c rest =>
      rw [scanExponent, (delimiter_byte c hends).2.2, if_neg Bool.false_ne_true]
  · have hmark : (e == 0x65 || e == 0x45) = true := by
      rcases he with rfl | rfl
      · decide
      · decide
    have hskip : skipOne [0x2B, 0x2D] (sign ++ ds ++ rest) = ds ++ rest := by
      rcases hsign with rfl | rfl | rfl
      · obtain ⟨hne, hall⟩ := hds
        cases ds with
        | nil => exact absurd rfl hne
        | cons d ds =>
          have hplain : ∀ b : UInt8, isDigit b = true → [0x2B, 0x2D].contains b = false :=
            forall_byte (P := fun b => isDigit b = true → [0x2B, 0x2D].contains b = false) (by decide)
          show skipOne _ (d :: (ds ++ rest)) = _
          rw [skipOne, hplain d (hall d List.mem_cons_self), if_neg Bool.false_ne_true]
          rfl
      · rfl
      · rfl
    rw [List.cons_append, scanExponent, hmark, if_pos rfl, hskip]
    dsimp only
    rw [digitAhead_append hds, if_pos rfl, skipDigits_append hds.2 (digitAhead_of_ends hends)]

/-- What stands behind the integer part: an exponent or the end of the value, a fraction or that. -/
theorem behind_exp {t rest : Bytes} (h : IsExp t) (hends : endsAValue rest = true) :
    digitAhead (t ++ rest) = false ∧ (t ++ rest).head? ≠ some 0x2E ∧ endsAValue (t ++ rest) = t.isEmpty := by
  rcases h with rfl | ⟨e, sign, ds, he, -, -, rfl⟩
  · rw [List.nil_append]
    refine ⟨digitAhead_of_ends hends, ?_, hends⟩
    intro hpoint
    cases rest with
    | nil => cases hpoint
    | cons c rest =>
      have hbyte : (c == 0x2E) = false := (delimiter_byte c hends).2.1
      rw [Option.some.inj hpoint] at hbyte
      exact absurd hbyte (by decide)
  · rcases he with rfl | rfl
    · exact ⟨rfl, by simp, rfl⟩
    · exact ⟨rfl, by simp, rfl⟩

theorem behind_int (n : Number) {rest : Bytes} (hends : endsAValue rest = true) :
    digitAhead (n.frac ++ (n.exp ++ rest)) = false ∧ endsAValue (n.frac ++ (n.exp ++ rest)) = n.isInteger := by
  obtain ⟨hdigit, -, hexp⟩ := behind_exp n.isExp hends
  unfold Number.isInteger
  rcases n.isFrac with hnone | ⟨ds, -, hfrac⟩
  · rw [hnone, List.nil_append]
    exact ⟨hdigit, hexp⟩
  · rw [hfrac]
    exact ⟨rfl, rfl⟩

/-- What the scan finds behind the minus, and behind the integer part. -/
theorem scan_int {ds : Bytes} (h : IsInt ds) (behind : Bytes) (hdigit : digitAhead behind = false) :
    ∃ b t, ds ++ behind = b :: t ∧ isDigit b = true ∧
      (if b == 0x30 then t else skipDigits (b :: t)) = behind := by
  rcases h with rfl | ⟨⟨hne, hall⟩, hlead⟩
  · exact ⟨0x30, behind, rfl, rfl, rfl⟩
  · cases ds with
    | nil => exact absurd rfl hne
    | cons d ds =>
      have hzero : ¬(d == 0x30) = true := by
        intro hd
        exact hlead (congrArg some (beq_iff_eq.mp hd))
      refine ⟨d, ds ++ behind, rfl, hall d List.mem_cons_self, ?_⟩
      rw [if_neg hzero, ← List.cons_append, skipDigits_append hall hdigit]

theorem skipOne_minus {n : Number} (rest : Bytes) :
    skipOne [0x2D] (n.spell ++ rest) = n.int ++ (n.frac ++ (n.exp ++ rest)) := by
  have hshape : n.spell ++ rest = (if n.minus then [0x2D] else []) ++ (n.int ++ (n.frac ++ (n.exp ++ rest))) := by
    unfold Number.spell
    simp only [List.append_assoc]
  rw [hshape]
  cases n.minus with
  | true => rfl
  | false =>
    obtain ⟨b, t, hbt, hdigit, -⟩ := scan_int n.isInt [] rfl
    have hplain : ∀ b : UInt8, isDigit b = true → [0x2D].contains b = false :=
      forall_byte (P := fun b => isDigit b = true → [0x2D].contains b = false) (by decide)
    rw [List.append_nil] at hbt
    rw [hbt, if_neg Bool.false_ne_true, List.nil_append, List.cons_append, skipOne, hplain b hdigit,
      if_neg Bool.false_ne_true]

/-- **The scan** passes a number, as an integer only one without fraction and exponent. -/
theorem scanJsonNumber_number (n : Number) {rest : Bytes} (hends : endsAValue rest = true) (integer : Bool) :
    scanJsonNumber (n.spell ++ rest) integer = if integer && !n.isInteger then none else some rest := by
  obtain ⟨hdigit, hint⟩ := behind_int n hends
  obtain ⟨hdigitExp, hpoint, -⟩ := behind_exp n.isExp hends
  obtain ⟨b, t, hbt, hb, hrest⟩ := scan_int n.isInt _ hdigit
  unfold scanJsonNumber
  rw [skipOne_minus, hbt]
  dsimp only
  rw [hb, hrest]
  cases integer with
  | true =>
    rw [if_neg (by decide), if_pos rfl]
    dsimp only
    rw [hint]
    cases hinteger : n.isInteger with
    | true =>
      simp only [Number.isInteger, Bool.and_eq_true, List.isEmpty_iff] at hinteger
      rw [hinteger.1, hinteger.2]
      rfl
    | false => rfl
  | false =>
    rw [if_neg (by decide), if_neg Bool.false_ne_true, scanFraction_append n.isFrac hdigitExp hpoint, Option.bind_some,
      scanExponent_append n.isExp hends]
    dsimp only
    rw [hends]
    rfl

/-! ## The integer -/

theorem digit_sub (b : UInt8) : isDigit b = true → b.toNat - 0x30 ≤ 9 ∧
    (Int64.ofNat b.toNat - 0x30).toInt = ((b.toNat - 0x30 : Nat) : Int) :=
  forall_byte (P := fun b => isDigit b = true → b.toNat - 0x30 ≤ 9 ∧
    (Int64.ofNat b.toNat - 0x30).toInt = ((b.toNat - 0x30 : Nat) : Int)) (by decide) b

/-- The digits behind a number read so far. -/
def digitsFrom (m : Nat) (ds : Bytes) : Nat := ds.foldl (fun m b => m * 10 + (b.toNat - 0x30)) m

theorem le_digitsFrom (m : Nat) (ds : Bytes) : m ≤ digitsFrom m ds := by
  induction ds generalizing m with
  | nil => exact Nat.le_refl m
  | cons b ds ih =>
    have hnext := ih (m * 10 + (b.toNat - 0x30))
    unfold digitsFrom at hnext ⊢
    rw [List.foldl_cons]
    omega

/-- **The digits add up downwards** to the negated number they write, or to nothing past the range. -/
theorem accumulate_eq {ds : Bytes} (hds : ∀ b ∈ ds, isDigit b = true) {m : Nat} {r : Int64} (hr : r.toInt = -(m : Int)) :
    (digitsFrom m ds ≤ 2 ^ 63 ∧ ∃ r', accumulate ds r = some r' ∧ r'.toInt = -(digitsFrom m ds : Int)) ∨
      (2 ^ 63 < digitsFrom m ds ∧ accumulate ds r = none) := by
  induction ds generalizing m r with
  | nil =>
    have hlow := r.le_toInt
    left
    refine ⟨?_, r, rfl, hr⟩
    show m ≤ 2 ^ 63
    omega
  | cons b ds ih =>
    obtain ⟨hnine, hd⟩ := digit_sub b (hds b List.mem_cons_self)
    have hcut : CUTOFF.toInt = -922337203685477580 := by decide
    have height : (8 : Int64).toInt = 8 := by decide
    have hguard : (decide (r < CUTOFF) || (r == CUTOFF && decide (Int64.ofNat b.toNat - 0x30 > 8))) = true ↔
        2 ^ 63 < m * 10 + (b.toNat - 0x30) := by
      rw [Bool.or_eq_true, Bool.and_eq_true, decide_eq_true_iff, decide_eq_true_iff, beq_iff_eq,
        Int64.lt_iff_toInt_lt, ← Int64.toInt_inj, hcut, hr, gt_iff_lt, Int64.lt_iff_toInt_lt, height, hd]
      omega
    have hstep : digitsFrom m (b :: ds) = digitsFrom (m * 10 + (b.toNat - 0x30)) ds := rfl
    rw [hstep, accumulate]
    by_cases hover : 2 ^ 63 < m * 10 + (b.toNat - 0x30)
    · right
      have hle := le_digitsFrom (m * 10 + (b.toNat - 0x30)) ds
      exact ⟨by omega, if_pos (hguard.mpr hover)⟩
    · have hmul : (r * 10).toInt = -(m : Int) * 10 := by
        rw [Int64.toInt_mul, hr, show (10 : Int64).toInt = 10 from by decide]
        exact Int.bmod_eq_of_le_mul_two (by omega) (by omega)
      have hnext : (r * 10 - (Int64.ofNat b.toNat - 0x30)).toInt = -((m * 10 + (b.toNat - 0x30) : Nat) : Int) := by
        rw [Int64.toInt_sub, hmul, hd, Int.bmod_eq_of_le_mul_two (by omega) (by omega)]
        omega
      rw [if_neg (mt hguard.mp hover)]
      exact ih (fun c hc => hds c (List.mem_cons_of_mem _ hc)) hnext

/-! ## A value, read as what was asked for -/

/-- An integer of the machine's range, written without fraction and exponent. -/
def intOf : Tree .value → Option Int64
  | .number n =>
    if n.isInteger ∧ -9223372036854775808 ≤ n.value ∧ n.value ≤ 9223372036854775807 then some (Int64.ofInt n.value)
    else none
  | _ => none

def boolOf : Tree .value → Option Bool
  | .bool b => some b
  | _ => none

/-- The text of a number. -/
def numberOf : Tree .value → Option Bytes
  | .number n => some n.spell
  | _ => none

/-- The text of a string, which has one unless a surrogate stands alone in it. -/
def stringOf : Tree .value → Option Bytes
  | .string items => (Rfc8259.text items).map Rfc8259.utf8
  | _ => none

/-- No number is read where the value is none. -/
theorem scanJsonNumber_other {v : Tree .value} (hother : numberOf v = none) (rest : Bytes) (integer : Bool) :
    scanJsonNumber (v.spell ++ rest) integer = none := by
  cases v with
  | number n => cases hother
  | bool b =>
    cases b
    all_goals rfl
  | null => rfl
  | string items => rfl
  | emptyArray w => rfl
  | array es => rfl
  | emptyObject w => rfl
  | object ms => rfl

/-- A number starts with a minus or a digit. -/
theorem spell_number (n : Number) : ∃ b t, n.spell = b :: t ∧ (b = 0x2D ∨ isDigit b = true) := by
  obtain ⟨b, t, hbt, hdigit, -⟩ := scan_int n.isInt [] rfl
  rw [List.append_nil] at hbt
  unfold Number.spell
  rw [hbt]
  cases n.minus with
  | true => exact ⟨0x2D, _, rfl, Or.inl rfl⟩
  | false => exact ⟨b, _, rfl, Or.inr hdigit⟩

theorem take_spell (x rest : Bytes) : (x ++ rest).take ((x ++ rest).length - rest.length) = x := by
  rw [List.length_append, Nat.add_sub_cancel]
  exact List.take_left

/-- The digits of an integer part. -/
theorem isDigit_int {ds : Bytes} (h : IsInt ds) : ∀ b ∈ ds, isDigit b = true := by
  rcases h with rfl | ⟨⟨-, hall⟩, -⟩
  · intro b hb
    rw [List.mem_singleton.mp hb]
    rfl
  · exact hall

/-- The digits of an integer, read and put in range. -/
theorem accumulate_integer {n : Number} (hinteger : n.isInteger = true) :
    (match accumulate (if n.spell.getD 0 0 == 0x2D then n.spell.drop 1 else n.spell) 0 with
      | none => none
      | some result =>
        if n.spell.getD 0 0 == 0x2D then some result
        else if result == -9223372036854775807 - 1 then none
        else some (-result)) =
      if true = true ∧ -9223372036854775808 ≤ n.value ∧ n.value ≤ 9223372036854775807 then
        some (Int64.ofInt n.value)
      else none := by
  simp only [Number.isInteger, Bool.and_eq_true, List.isEmpty_iff] at hinteger
  have hsum := accumulate_eq (m := 0) (r := 0) (isDigit_int n.isInt) rfl
  rw [show digitsFrom 0 n.int = Rfc8259.digitsValue n.int from rfl] at hsum
  have hsize : Int64.size = 2 ^ 64 := rfl
  unfold Number.spell Number.value
  rw [hinteger.1, hinteger.2, List.append_nil, List.append_nil]
  cases n.minus with
  | true =>
    rw [if_pos rfl, if_pos rfl]
    show (match accumulate n.int 0 with
      | none => none
      | some result => some result) = _
    rcases hsum with ⟨hle, r, hr, hval⟩ | ⟨hgt, hnone⟩
    · rw [hr, if_pos ⟨rfl, by omega, by omega⟩]
      show some r = _
      rw [Option.some_inj, ← Int64.toInt_inj, hval, Int64.toInt_ofInt, hsize, Int.bmod_eq_of_le_mul_two (by omega) (by omega)]
    · rw [hnone, if_neg (by omega)]
  | false =>
    obtain ⟨b, t, hbt, hdigit, -⟩ := scan_int n.isInt [] rfl
    rw [List.append_nil] at hbt
    have hplain : (b == 0x2D) = false := by
      rw [beq_eq_false_iff_ne]
      intro hminus
      rw [hminus] at hdigit
      exact absurd hdigit (by decide)
    have hfirst : (n.int.getD 0 0 == 0x2D) = false := by
      rw [hbt]
      exact hplain
    rw [if_neg Bool.false_ne_true, if_neg Bool.false_ne_true, List.nil_append, hfirst, if_neg Bool.false_ne_true]
    rcases hsum with ⟨hle, r, hr, hval⟩ | ⟨hgt, hnone⟩
    · rw [hr]
      dsimp only
      rw [if_neg Bool.false_ne_true]
      have hmin : (-9223372036854775807 - 1 : Int64).toInt = -2 ^ 63 := by decide
      by_cases hlast : Rfc8259.digitsValue n.int = 2 ^ 63
      · have heq : (r == -9223372036854775807 - 1) = true := by
          rw [beq_iff_eq, ← Int64.toInt_inj, hval, hmin, hlast]
          rfl
        rw [heq, if_pos rfl, if_neg (by omega)]
      · have hne : (r == -9223372036854775807 - 1) = false := by
          rw [beq_eq_false_iff_ne, ne_eq, ← Int64.toInt_inj, hval, hmin]
          omega
        rw [hne, if_neg Bool.false_ne_true, if_pos ⟨rfl, by omega, by omega⟩]
        congr 1
        rw [← Int64.toInt_inj, Int64.toInt_neg, hval, Int64.toInt_ofInt, hsize,
          Int.bmod_eq_of_le_mul_two (by omega) (by omega), Int.bmod_eq_of_le_mul_two (by omega) (by omega)]
        omega
    · rw [hnone, if_neg (by omega)]

section Found

variable {body field rest : Bytes} {v : Tree .value} (hfound : findValueStart body field = some (v.spell ++ rest))
  (hends : endsAValue rest = true)

include hfound hends

theorem parseJsonNumber_of_found {Float64 : Type} (float64 : Bytes → Option Float64) :
    parseJsonNumber float64 body field = (numberOf v).bind float64 := by
  unfold parseJsonNumber
  rw [hfound]
  dsimp only
  cases hnumber : numberOf v with
  | none =>
    rw [scanJsonNumber_other hnumber]
    rfl
  | some t =>
    cases v with
    | number n =>
      cases hnumber
      rw [show (Tree.number n).spell = n.spell from rfl, scanJsonNumber_number n hends]
      rw [Bool.false_and, if_neg Bool.false_ne_true, Option.bind_some]
      show float64 (List.take _ _) = _
      rw [take_spell]
    | _ => cases hnumber

theorem parseJsonInt_of_found : parseJsonInt body field = intOf v := by
  unfold parseJsonInt
  rw [hfound]
  dsimp only
  cases hnumber : numberOf v with
  | none =>
    rw [scanJsonNumber_other hnumber]
    cases v with
    | number n => cases hnumber
    | _ => rfl
  | some t =>
    cases v with
    | number n =>
      rw [show (Tree.number n).spell = n.spell from rfl, scanJsonNumber_number n hends, intOf]
      cases hinteger : n.isInteger with
      | false =>
        rw [if_pos (by decide), if_neg (by simp)]
      | true =>
        rw [if_neg (by decide)]
        dsimp only
        rw [take_spell]
        exact accumulate_integer hinteger
    | _ => cases hnumber

theorem parseJsonBool_of_found : parseJsonBool body field = boolOf v := by
  unfold parseJsonBool
  rw [hfound]
  cases v with
  | bool b =>
    cases b
    all_goals exact if_pos hends
  | number n =>
    obtain ⟨b, t, hbt, hfirst⟩ := spell_number n
    have hnot : b ≠ 0x74 ∧ b ≠ 0x66 := by
      rcases hfirst with rfl | hdigit
      · decide
      · constructor
        · rintro rfl
          exact absurd hdigit (by decide)
        · rintro rfl
          exact absurd hdigit (by decide)
    rw [show (Tree.number n).spell = n.spell from rfl, hbt, List.cons_append]
    split
    · next heq => cases heq
    · next heq => exact absurd (List.cons.inj (Option.some.inj heq)).1 hnot.1
    · next heq => exact absurd (List.cons.inj (Option.some.inj heq)).1 hnot.2
    · rfl
  | _ => rfl

end Found

end Json

end MojoHttp
