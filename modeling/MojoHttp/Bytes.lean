import Mathlib.Data.List.Basic
import Mathlib.Data.List.DropRight
import Mathlib.Data.List.GetD
import Mathlib.Data.Nat.Digits.Lemmas

/-!
# Bytes: the constants, byte classes and list walks every parser shares

The bottom of the model: `strings.mojo` (`BytesConstant`, `is_token_char`, `trim_ows`,
`next_list_member`), the ASCII folding of `header.mojo` and the reader of `io/bytes.mojo`.
A `Bytes`, a `Span` and a `String` are all a list of bytes here: the source reads a `String`
through `as_bytes` and makes one with `unsafe_from_utf8`, so no text of it is assumed UTF-8.

* **`forall_byte`** — a decidable fact of every byte is checked on the 256 of them.
* **`nextListMember`** — one step of the walk over a comma-separated value, its bounds
  given by `nextListMember_spec`.
* **`ByteReader`** — the read position over a span; `rest` is what it has not read yet, and
  every reader lemma is stated on it.
-/

namespace MojoHttp

abbrev Bytes := List UInt8

/-- A decidable property of bytes holds of all of them once the 256 values have it, a nibble at a
time. -/
theorem forall_byte {P : UInt8 → Prop} (h : ∀ hi < 16, ∀ lo < 16, P (UInt8.ofNat (16 * hi + lo)))
    (c : UInt8) : P c := by
  have hlt := c.toNat_lt
  have hc := h (c.toNat / 16) (by omega) (c.toNat % 16) (by omega)
  have hnibbles : 16 * (c.toNat / 16) + c.toNat % 16 = c.toNat := by omega
  simpa [hnibbles] using hc

example : ∀ b : UInt8, b &&& 0x0F ≤ 0x0F := forall_byte (by decide +kernel)

/-- What every byte of a text has is decided along the text, not over the 256 values. -/
instance (priority := 10000) decidableForallMem {P : UInt8 → Prop} [DecidablePred P] (text : Bytes) :
    Decidable (∀ b ∈ text, P b) :=
  List.decidableBAll P text

/-! ## `BytesConstant` -/

namespace BytesConstant

abbrev whitespace : UInt8 := 0x20
abbrev CR : UInt8 := 0x0D
abbrev LF : UInt8 := 0x0A
abbrev TAB : UInt8 := 0x09
abbrev COLON : UInt8 := 0x3A
abbrev SEMICOLON : UInt8 := 0x3B
abbrev COMMA : UInt8 := 0x2C
abbrev ZERO : UInt8 := 0x30
abbrev ONE : UInt8 := 0x31
abbrev NINE : UInt8 := 0x39
abbrev A_UPPER : UInt8 := 0x41
abbrev A_LOWER : UInt8 := 0x61
abbrev F_UPPER : UInt8 := 0x46
abbrev F_LOWER : UInt8 := 0x66
abbrev H : UInt8 := 0x48
abbrev T : UInt8 := 0x54
abbrev P : UInt8 := 0x50
abbrev SLASH : UInt8 := 0x2F
abbrev DOT : UInt8 := 0x2E

end BytesConstant

open BytesConstant

/-- The bytes of a literal of the source, ASCII every one. -/
def ascii (s : String) : Bytes := s.toList.map fun c => UInt8.ofNat c.toNat

/-- The decimal text of a number. -/
def decimal (n : Nat) : Bytes :=
  if n = 0 then [0x30] else ((Nat.digits 10 n).map fun d => UInt8.ofNat (0x30 + d)).reverse

/-- `String(x)` of an `Int`. -/
def intText (x : Int) : Bytes :=
  if x < 0 then 0x2D :: decimal x.natAbs else decimal x.natAbs

theorem decimal_digits (n : Nat) : ∀ b ∈ decimal n, 0x30 ≤ b ∧ b ≤ 0x39 := by
  intro b hb
  unfold decimal at hb
  split at hb
  · rw [List.mem_singleton.mp hb]
    decide
  · obtain ⟨d, hd, rfl⟩ := List.mem_map.mp (List.mem_reverse.mp hb)
    have hlt : d < 10 := Nat.digits_lt_base (by decide) hd
    exact (by decide : ∀ d < 10, 0x30 ≤ UInt8.ofNat (0x30 + d) ∧ UInt8.ofNat (0x30 + d) ≤ 0x39) d hlt

theorem decimal_ne_nil (n : Nat) : decimal n ≠ [] := by
  unfold decimal
  split
  · exact List.cons_ne_nil _ _
  · next h => simpa [Nat.digits_eq_nil_iff_eq_zero] using h

/-- The digits read back, the highest first. -/
theorem foldl_decimal (n : Nat) : (decimal n).foldl (fun v b => v * 10 + (b.toNat - 0x30)) 0 = n := by
  unfold decimal
  split
  · next h => rw [h]; rfl
  · rw [List.foldl_reverse, List.foldr_map]
    have hdigits : ∀ ds : List Nat, (∀ d ∈ ds, d < 10) →
        ds.foldr (fun d v => v * 10 + ((UInt8.ofNat (0x30 + d)).toNat - 0x30)) 0 = Nat.ofDigits 10 ds := by
      intro ds hlt
      induction ds with
      | nil => rfl
      | cons d ds ih =>
        have hd : (UInt8.ofNat (0x30 + d)).toNat - 0x30 = d :=
          (by decide : ∀ d < 10, (UInt8.ofNat (0x30 + d)).toNat - 0x30 = d) d (hlt d List.mem_cons_self)
        rw [List.foldr_cons, ih fun e he => hlt e (List.mem_cons_of_mem _ he), hd, Nat.ofDigits_cons]
        omega
    rw [hdigits _ fun d hd => Nat.digits_lt_base (by decide) hd, Nat.ofDigits_digits]

theorem length_decimal_le {n k : Nat} (hk : 0 < k) : (decimal n).length ≤ k ↔ n < 10 ^ k := by
  unfold decimal
  split
  · next h =>
    subst h
    exact iff_of_true hk (Nat.pow_pos (by decide))
  · rw [List.length_reverse, List.length_map]
    exact Nat.digits_length_le_iff (by decide) n

/-! ## Byte classes -/

def TCHAR_LO : UInt64 := 0x03FF6CFA00000000
def TCHAR_HI : UInt64 := 0x57FFFFFFC7FFFFFE

/-- `is_token_char`: bit `c & 63` of the word for `c >> 6`. -/
def isTokenChar (c : UInt8) : Bool :=
  if c ≥ 0x80 then false
  else
    let word := if c ≥ 0x40 then TCHAR_HI else TCHAR_LO
    (word >>> (c &&& 0x3F).toUInt64) &&& 1 == 1

/-- A token character is visible ASCII and no colon. -/
theorem isTokenChar_visible : ∀ c : UInt8, isTokenChar c = true → 0x21 ≤ c ∧ c < 0x7F ∧ c ≠ COLON :=
  forall_byte (P := fun c => isTokenChar c = true → 0x21 ≤ c ∧ c < 0x7F ∧ c ≠ COLON)
    (by decide)

/-- `ascii_lower_byte`. -/
def asciiLowerByte (b : UInt8) : UInt8 :=
  if b ≥ 0x41 ∧ b ≤ 0x5A then b ||| 0x20 else b

@[simp] theorem asciiLowerByte_idem :
    ∀ b : UInt8, asciiLowerByte (asciiLowerByte b) = asciiLowerByte b :=
  forall_byte (P := fun b => asciiLowerByte (asciiLowerByte b) = asciiLowerByte b)
    (by decide)

/-- `ascii_lowercase`. -/
def asciiLowercase (s : Bytes) : Bytes := s.map asciiLowerByte

@[simp] theorem length_asciiLowercase (s : Bytes) : (asciiLowercase s).length = s.length := by
  simp [asciiLowercase]

@[simp] theorem asciiLowercase_idem (s : Bytes) :
    asciiLowercase (asciiLowercase s) = asciiLowercase s := by
  simp [asciiLowercase, Function.comp_def]

/-- `name_is`: whether a raw name equals a known-lowercase constant. -/
def nameIs (name lowercase : Bytes) : Bool :=
  if name.length ≠ lowercase.length then false
  else (List.range name.length).all fun i =>
    asciiLowerByte (name.getD i 0) == lowercase.getD i 0

theorem nameIs_iff {name want : Bytes} : nameIs name want = true ↔ asciiLowercase name = want := by
  unfold nameIs
  split
  · rename_i hlen
    constructor
    · intro h; cases h
    · intro h; rw [← h] at hlen; simp at hlen
  · rename_i hlen
    rw [not_not] at hlen
    rw [List.all_eq_true]
    constructor
    · intro h
      apply List.ext_getElem (by simpa using hlen)
      intro i h1 h2
      have hi : i < name.length := by simpa using h1
      have hb := h i (List.mem_range.mpr hi)
      rw [List.getD_eq_getElem _ _ hi, List.getD_eq_getElem _ _ h2, beq_iff_eq] at hb
      simpa [asciiLowercase] using hb
    · rintro rfl i hi
      have hi' : i < name.length := List.mem_range.mp hi
      simp [asciiLowercase, List.getD_eq_getElem?_getD, hi']

/-! ## Slices -/

/-- `x[a:b]`. -/
def slice (x : Bytes) (a b : Nat) : Bytes := (x.drop a).take (b - a)

@[simp] theorem length_slice (x : Bytes) (a b : Nat) :
    (slice x a b).length = min (b - a) (x.length - a) := by
  simp [slice]

theorem slice_append_slice (x : Bytes) {a b c : Nat} (h1 : a ≤ b) (h2 : b ≤ c) :
    slice x a b ++ slice x b c = slice x a c := by
  unfold slice
  rw [show c - a = (b - a) + (c - b) from by omega, List.take_add, List.drop_drop,
    show a + (b - a) = b from by omega]

theorem slice_self (x : Bytes) (a : Nat) : slice x a a = [] := by simp [slice]

/-! ## `trim_ows` and `next_list_member` -/

/-- SP or HTAB, the optional whitespace of a field value. -/
def isOws (c : UInt8) : Bool := c == 0x20 || c == 0x09

/-- `while lo < hi and x[lo] is OWS: lo += 1`; `n` is `hi - lo`. -/
def trimLo (x : Bytes) : (n lo : Nat) → Nat
  | 0, lo => lo
  | n + 1, lo => if isOws (x.getD lo 0) then trimLo x n (lo + 1) else lo

/-- `while hi > lo and x[hi - 1] is OWS: hi -= 1`; `n` is `hi - lo`. -/
def trimHi (x : Bytes) : (n hi : Nat) → Nat
  | 0, hi => hi
  | n + 1, hi => if isOws (x.getD (hi - 1) 0) then trimHi x n (hi - 1) else hi

/-- `trim_ows`: the bounds of `x[a:b]` without the SP and HTAB at either end. -/
def trimOws (x : Bytes) (a b : Nat) : Nat × Nat :=
  let lo := trimLo x (b - a) a
  (lo, trimHi x (b - lo) b)

/-- The text `trim_ows` leaves of a list. -/
def trimmed (l : Bytes) : Bytes := (l.dropWhile isOws).rdropWhile isOws

theorem trimLo_bounds (x : Bytes) (n lo : Nat) : lo ≤ trimLo x n lo ∧ trimLo x n lo ≤ lo + n := by
  induction n generalizing lo with
  | zero => simp [trimLo]
  | succ n ih =>
    have h := ih (lo + 1)
    simp only [trimLo]
    split <;> omega

theorem trimHi_bounds (x : Bytes) (n hi : Nat) (h : n ≤ hi) :
    hi - n ≤ trimHi x n hi ∧ trimHi x n hi ≤ hi := by
  induction n generalizing hi with
  | zero => simp [trimHi]
  | succ n ih =>
    have h := ih (hi - 1) (by omega)
    simp only [trimHi]
    split <;> omega

theorem slice_cons_getD (x : Bytes) {a b : Nat} (h1 : a < b) (h2 : b ≤ x.length) :
    slice x a b = x.getD a 0 :: slice x (a + 1) b := by
  have ha : a < x.length := by omega
  unfold slice
  rw [List.drop_eq_getElem_cons ha, show b - a = (b - (a + 1)) + 1 from by omega,
    List.take_succ_cons, List.getD_eq_getElem _ _ ha]

theorem slice_snoc_getD (x : Bytes) {a b : Nat} (h1 : a < b) (h2 : b ≤ x.length) :
    slice x a b = slice x a (b - 1) ++ [x.getD (b - 1) 0] := by
  have hlast : slice x (b - 1) b = [x.getD (b - 1) 0] := by
    rw [slice_cons_getD x (by omega) h2, show b - 1 + 1 = b from by omega, slice_self]
  rw [← hlast, slice_append_slice x (by omega) (by omega)]

theorem slice_trimLo (x : Bytes) (n lo : Nat) (h : lo + n ≤ x.length) :
    slice x (trimLo x n lo) (lo + n) = (slice x lo (lo + n)).dropWhile isOws := by
  induction n generalizing lo with
  | zero => simp [trimLo, slice_self]
  | succ n ih =>
    have hcons := slice_cons_getD x (a := lo) (b := lo + (n + 1)) (by omega) h
    have hstep := ih (lo + 1) (by omega)
    rw [show lo + 1 + n = lo + (n + 1) from by omega] at hstep
    simp only [trimLo]
    split
    · rename_i hw
      rw [hstep, hcons, List.dropWhile_cons_of_pos hw]
    · rename_i hw
      rw [hcons, List.dropWhile_cons_of_neg hw]

theorem slice_trimHi (x : Bytes) (n hi : Nat) (hn : n ≤ hi) (h : hi ≤ x.length) :
    slice x (hi - n) (trimHi x n hi) = (slice x (hi - n) hi).rdropWhile isOws := by
  induction n generalizing hi with
  | zero => simp [trimHi, slice_self]
  | succ n ih =>
    have hsnoc := slice_snoc_getD x (a := hi - (n + 1)) (b := hi) (by omega) h
    have hstep := ih (hi - 1) (by omega) (by omega)
    rw [show hi - 1 - n = hi - (n + 1) from by omega] at hstep
    simp only [trimHi]
    split
    · rename_i hw
      rw [hstep, hsnoc, List.rdropWhile_concat_pos _ _ _ hw]
    · rename_i hw
      rw [hsnoc, List.rdropWhile_concat_neg _ _ _ hw]

/-- **`trim_ows` cuts exactly the whitespace at both ends.** -/
theorem slice_trimOws (x : Bytes) {a b : Nat} (h1 : a ≤ b) (h2 : b ≤ x.length) :
    slice x (trimOws x a b).1 (trimOws x a b).2 = trimmed (slice x a b) := by
  have hb : a + (b - a) = b := by omega
  have hlo := slice_trimLo x (b - a) a (by omega)
  have hloB := trimLo_bounds x (b - a) a
  rw [hb] at hlo
  set lo := trimLo x (b - a) a with hlodef
  have hhi := slice_trimHi x (b - lo) b (by omega) h2
  rw [show b - (b - lo) = lo from by omega] at hhi
  show slice x lo (trimHi x (b - lo) b) = _
  rw [hhi, hlo]
  rfl

theorem trimOws_bounds (x : Bytes) {a b : Nat} (h : a ≤ b) :
    a ≤ (trimOws x a b).1 ∧ (trimOws x a b).1 ≤ (trimOws x a b).2 ∧ (trimOws x a b).2 ≤ b := by
  have hlo := trimLo_bounds x (b - a) a
  have hhi := trimHi_bounds x (b - trimLo x (b - a) a) b (by omega)
  simp only [trimOws]
  omega

/-- `while stop < n and x[stop] != ',': stop += 1`; `k` is `len(x) - stop`. -/
def commaStop (x : Bytes) : (k stop : Nat) → Nat
  | 0, stop => stop
  | k + 1, stop => if x.getD stop 0 != COMMA then commaStop x k (stop + 1) else stop

/-- `next_list_member`: the bounds of the member that begins at `start`, trimmed, and where
the member after it begins, one past its comma. -/
def nextListMember (x : Bytes) (start : Nat) : Nat × Nat × Nat :=
  let stop := commaStop x (x.length - start) start
  let member := trimOws x start stop
  (member.1, member.2, stop + 1)

theorem commaStop_bounds (x : Bytes) (k stop : Nat) :
    stop ≤ commaStop x k stop ∧ commaStop x k stop ≤ stop + k := by
  induction k generalizing stop with
  | zero => simp [commaStop]
  | succ k ih =>
    have h := ih (stop + 1)
    simp only [commaStop]
    split <;> omega

/-- The bytes before the stop hold no comma, and a stop inside `x` is at one. -/
theorem commaStop_spec (x : Bytes) (k stop : Nat) (h : stop + k = x.length) :
    COMMA ∉ slice x stop (commaStop x k stop) ∧
      (commaStop x k stop < x.length → x.getD (commaStop x k stop) 0 = COMMA) := by
  induction k generalizing stop with
  | zero =>
    simp only [commaStop, slice_self, List.not_mem_nil, not_false_eq_true, true_and]
    intro hlt; omega
  | succ k ih =>
    simp only [commaStop]
    cases hc : (x.getD stop 0 != COMMA) with
    | true =>
      obtain ⟨hno, hat⟩ := ih (stop + 1) (by omega)
      have hb := commaStop_bounds x k (stop + 1)
      refine ⟨?_, hat⟩
      rw [if_pos rfl, slice_cons_getD x (by omega) (by omega), List.mem_cons, not_or]
      refine ⟨fun h => ?_, hno⟩
      rw [← h] at hc
      cases hc
    | false =>
      rw [if_neg (by simp), slice_self]
      exact ⟨by simp, fun _ => by simpa using hc⟩

/-- The members of a comma-separated value: what stands between the commas, trimmed. -/
def listMembers (x : Bytes) : List Bytes := (x.splitOn COMMA).map trimmed

/-- **One step of the walk over a list.** It takes the first member of what is left; the walk
is over exactly when that was the last one. -/
theorem nextListMember_spec (x : Bytes) {start : Nat} (h : start ≤ x.length) :
    let m := nextListMember x start
    m.1 ≤ m.2.1 ∧ m.2.1 ≤ x.length ∧ start < m.2.2 ∧ m.2.2 ≤ x.length + 1 ∧
      listMembers (x.drop start) = slice x m.1 m.2.1 ::
        (if m.2.2 = x.length + 1 then [] else listMembers (x.drop m.2.2)) := by
  intro m
  have hb := commaStop_bounds x (x.length - start) start
  obtain ⟨hno, hat⟩ := commaStop_spec x (x.length - start) start (by omega)
  set stop := commaStop x (x.length - start) start with hstop
  have htrim := trimOws_bounds x hb.1
  have hslice := slice_trimOws x hb.1 (show stop ≤ x.length by omega)
  have hm : m = ((trimOws x start stop).1, (trimOws x start stop).2, stop + 1) := rfl
  refine ⟨by rw [hm]; dsimp only; omega, by rw [hm]; dsimp only; omega, by rw [hm]; dsimp only; omega,
    by rw [hm]; dsimp only; omega, ?_⟩
  rw [hm]
  dsimp only
  rw [hslice]
  have hdrop : x.drop start = slice x start stop ++ x.drop stop := by
    unfold slice
    rw [show x.drop stop = (x.drop start).drop (stop - start) from by
      rw [List.drop_drop, show start + (stop - start) = stop from by omega], List.take_append_drop]
  unfold listMembers
  rcases Nat.lt_or_ge stop x.length with hlt | hge
  · rw [if_neg (by omega), hdrop, List.drop_eq_getElem_cons hlt]
    have hcomma := hat hlt
    rw [List.getD_eq_getElem _ _ hlt] at hcomma
    rw [hcomma, List.splitOn_append_cons_self_of_not_mem hno, List.map_cons]
  · rw [if_pos (by omega), hdrop, List.drop_eq_nil_of_le hge, List.append_nil,
      List.splitOn_eq_singleton hno]
    rfl

/-! ## `ByteReader` -/

/-- `ByteReader`: a span and how much of it has been read. -/
structure ByteReader where
  inner : Bytes
  readPos : Nat
  deriving Repr, DecidableEq

namespace ByteReader

/-- The bytes not read yet. -/
def rest (r : ByteReader) : Bytes := r.inner.drop r.readPos

def available (r : ByteReader) : Bool := r.readPos < r.inner.length

def remaining (r : ByteReader) : Nat := r.inner.length - r.readPos

def increment (r : ByteReader) (v : Nat := 1) : ByteReader := { r with readPos := r.readPos + v }

/-- `try_peek`: the byte at the read position, if there is one. -/
def tryPeek (r : ByteReader) : Option UInt8 :=
  if r.available then r.inner[r.readPos]? else none

/-- `try_get_byte`. -/
def tryGetByte (r : ByteReader) : Option (UInt8 × ByteReader) :=
  if r.available then (r.inner[r.readPos]?).map fun b => (b, r.increment) else none

/-- `while available(): if not p(peek): break; increment()`; `k` is what is left to read. -/
def skipWhile (p : UInt8 → Bool) : (k : Nat) → ByteReader → ByteReader
  | 0, r => r
  | k + 1, r =>
    match r.tryPeek with
    | some b => if p b then skipWhile p k r.increment else r
    | none => r

@[simp] theorem increment_inner (r : ByteReader) (v : Nat) : (r.increment v).inner = r.inner := rfl
@[simp] theorem increment_readPos (r : ByteReader) (v : Nat) :
    (r.increment v).readPos = r.readPos + v := rfl

theorem rest_increment (r : ByteReader) (v : Nat) : (r.increment v).rest = r.rest.drop v := by
  simp [rest]

theorem tryPeek_eq (r : ByteReader) : r.tryPeek = r.rest.head? := by
  unfold tryPeek available rest
  rw [List.head?_drop]
  split
  · rfl
  · rename_i h
    rw [List.getElem?_eq_none (by simpa using h)]

/-- `r` read `eaten` and became `r'`. -/
structure Eats (r : ByteReader) (eaten : Bytes) (r' : ByteReader) : Prop where
  inner : r'.inner = r.inner
  rest : r.rest = eaten ++ r'.rest
  pos : r'.readPos = r.readPos + eaten.length

theorem Eats.refl (r : ByteReader) : r.Eats [] r := ⟨rfl, rfl, rfl⟩

theorem Eats.trans {r r' r'' : ByteReader} {a b : Bytes} (h1 : r.Eats a r') (h2 : r'.Eats b r'') :
    r.Eats (a ++ b) r'' :=
  ⟨h2.inner.trans h1.inner, by rw [h1.rest, h2.rest, List.append_assoc],
    by rw [h2.pos, h1.pos, List.length_append]; omega⟩

theorem Eats.peek {r : ByteReader} {b : UInt8} (h : r.tryPeek = some b) :
    r.Eats [b] r.increment := by
  rw [tryPeek_eq] at h
  refine ⟨rfl, ?_, rfl⟩
  rw [rest_increment]
  cases hr : r.rest with
  | nil => rw [hr] at h; cases h
  | cons c cs => rw [hr] at h; cases h; rfl

/-- Reading `v` bytes that are there. -/
theorem Eats.increment {r : ByteReader} {v : Nat} (h : v ≤ r.rest.length) :
    r.Eats (r.rest.take v) (r.increment v) :=
  ⟨rfl, by rw [rest_increment, List.take_append_drop], by simp [h]⟩

theorem skipWhile_eats (p : UInt8 → Bool) (k : Nat) (r : ByteReader) :
    ∃ eaten, r.Eats eaten (skipWhile p k r) ∧ ∀ b ∈ eaten, p b = true := by
  induction k generalizing r with
  | zero => exact ⟨[], Eats.refl r, by simp⟩
  | succ k ih =>
    unfold skipWhile
    cases hp : r.tryPeek with
    | none => exact ⟨[], Eats.refl r, by simp⟩
    | some b =>
      dsimp only
      split
      · rename_i hb
        obtain ⟨eaten, he, hall⟩ := ih r.increment
        refine ⟨b :: eaten, (Eats.peek hp).trans he, ?_⟩
        simpa [hb] using hall
      · exact ⟨[], Eats.refl r, by simp⟩

end ByteReader

end MojoHttp
