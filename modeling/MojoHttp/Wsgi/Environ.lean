import MojoHttp.Header.LineBytes

/-!
# Header text on its way to the application and back (`environ.mojo`)

A value's bytes are read as latin-1 and handed over as UTF-8, or as they are where all are ASCII;
what the application answers is put back into latin-1 (`encode_latin1_header_value`).

* **`allAscii_iff`** — the vector loops miss no byte.
* **`latin1_survives`** — the round trip, and what no value can gain on the way out.
-/

namespace MojoHttp

/-! ## To the application -/

/-- `while i + width <= n` of `all_ascii`; `none` is its `return False`. -/
def asciiChunks (b : Bytes) (width : Nat) : (fuel i : Nat) → Option Nat
  | 0, i => some i
  | fuel + 1, i =>
    if i + width ≤ b.length then
      if reduceMax (slice b i (i + width)) ≥ 0x80 then none else asciiChunks b width fuel (i + width)
    else some i

/-- `while i < n` of `all_ascii`. -/
def asciiBytes (b : Bytes) : (fuel i : Nat) → Bool
  | 0, _ => true
  | fuel + 1, i =>
    if i < b.length then if b.getD i 0 ≥ 0x80 then false else asciiBytes b fuel (i + 1) else true

/-- `all_ascii`. -/
def allAscii (b : Bytes) : Bool :=
  let n := b.length
  match asciiChunks b 16 n 0 with
  | none => false
  | some i =>
    match asciiChunks b 8 n i with
    | none => false
    | some i => asciiBytes b n i

/-- `_append_byte_as_utf8`. -/
def appendByteAsUtf8 (out : Bytes) (c : UInt8) : Bytes :=
  if c < 0x80 then out ++ [c] else out ++ [(0xC0 : UInt8) ||| (c >>> 6)] ++ [(0x80 : UInt8) ||| (c &&& 0x3F)]

/-- `append_latin1_as_utf8`. -/
def appendLatin1AsUtf8 (out b : Bytes) : Bytes := b.foldl appendByteAsUtf8 out

/-- The text of a value, as `_set_latin1` and its siblings hand it over. -/
def latin1Text (value : Bytes) : Bytes :=
  if allAscii value then value else appendLatin1AsUtf8 [] value

/-! ## The vector loops -/

/-- A loop leaves with a byte above ASCII met, or further on with none behind it. -/
theorem asciiChunks_spec (b : Bytes) (width fuel i : Nat) (hi : ∀ c ∈ b.take i, c < 0x80) :
    match asciiChunks b width fuel i with
    | none => ¬∀ c ∈ b, c < 0x80
    | some j => ∀ c ∈ b.take j, c < 0x80 := by
  induction fuel generalizing i with
  | zero => exact hi
  | succ fuel ih =>
    rw [asciiChunks]
    by_cases hroom : i + width ≤ b.length
    · rw [if_pos hroom]
      by_cases hhigh : reduceMax (slice b i (i + width)) ≥ 0x80
      · rw [if_pos hhigh]
        obtain ⟨c, hc, hge⟩ := (reduceMax_ge (by decide)).mp hhigh
        intro hall
        exact UInt8.not_le.mpr (hall c (List.mem_of_mem_drop (List.mem_of_mem_take hc))) hge
      · rw [if_neg hhigh]
        apply ih
        have htake : b.take (i + width) = b.take i ++ slice b i (i + width) := by
          rw [slice, Nat.add_sub_cancel_left, List.take_add]
        rw [htake, List.forall_mem_append]
        refine ⟨hi, ?_⟩
        intro c hc
        by_contra hge
        exact hhigh ((reduceMax_ge (by decide)).mpr ⟨c, hc, UInt8.not_lt.mp hge⟩)
    · rw [if_neg hroom]
      exact hi

theorem asciiBytes_iff {b : Bytes} {fuel i : Nat} (hi : ∀ c ∈ b.take i, c < 0x80)
    (hfuel : b.length ≤ i + fuel) : asciiBytes b fuel i = true ↔ ∀ c ∈ b, c < 0x80 := by
  induction fuel generalizing i with
  | zero =>
    rw [List.take_of_length_le (Nat.add_zero i ▸ hfuel)] at hi
    exact iff_of_true rfl hi
  | succ fuel ih =>
    rw [asciiBytes]
    by_cases hlt : i < b.length
    · rw [if_pos hlt, List.getD_eq_getElem _ _ hlt]
      by_cases hhigh : b[i] ≥ 0x80
      · rw [if_pos hhigh]
        refine iff_of_false Bool.false_ne_true fun hall => ?_
        exact UInt8.not_le.mpr (hall b[i] (List.getElem_mem hlt)) hhigh
      · rw [if_neg hhigh]
        refine ih ?_ (by omega)
        rw [List.take_succ_eq_append_getElem hlt, List.forall_mem_append]
        exact ⟨hi, List.forall_mem_singleton.mpr (UInt8.not_le.mp hhigh)⟩
    · rw [if_neg hlt]
      rw [List.take_of_length_le (by omega)] at hi
      exact iff_of_true rfl hi

/-- **`all_ascii` misses no byte.** -/
theorem allAscii_iff (b : Bytes) : allAscii b = true ↔ ∀ c ∈ b, c < 0x80 := by
  unfold allAscii
  dsimp only
  have hwide := asciiChunks_spec b 16 b.length 0 (List.forall_mem_nil _)
  cases hsixteen : asciiChunks b 16 b.length 0 with
  | none =>
    rw [hsixteen] at hwide
    exact iff_of_false Bool.false_ne_true hwide
  | some i =>
    rw [hsixteen] at hwide
    have hnarrow := asciiChunks_spec b 8 b.length i hwide
    dsimp only
    cases height : asciiChunks b 8 b.length i with
    | none =>
      rw [height] at hnarrow
      exact iff_of_false Bool.false_ne_true hnarrow
    | some j =>
      rw [height] at hnarrow
      exact asciiBytes_iff hnarrow (Nat.le_add_left _ _)

/-! ## The round trip -/

theorem appendByteAsUtf8_eq (out : Bytes) (c : UInt8) :
    appendByteAsUtf8 out c = out ++ appendByteAsUtf8 [] c := by
  unfold appendByteAsUtf8
  split
  · rfl
  · rw [List.append_assoc]
    rfl

theorem appendLatin1AsUtf8_eq (out b : Bytes) :
    appendLatin1AsUtf8 out b = out ++ b.flatMap (appendByteAsUtf8 []) := by
  induction b generalizing out with
  | nil => exact (List.append_nil out).symm
  | cons c b ih =>
    rw [appendLatin1AsUtf8, List.foldl_cons, appendByteAsUtf8_eq, List.flatMap_cons, ← List.append_assoc]
    exact ih _

/-- What one byte became is one byte again. -/
theorem encode_appendByte (c : UInt8) (rest : Bytes) :
    encodeLatin1HeaderValue (appendByteAsUtf8 [] c ++ rest) = c :: encodeLatin1HeaderValue rest := by
  unfold appendByteAsUtf8
  by_cases hc : c < 0x80
  · rw [if_pos hc]
    -- an ASCII byte leads no sequence
    have hlead : ¬(c = 0xC2 ∨ c = 0xC3) := by
      rintro (rfl | rfl) <;> exact absurd hc (by decide)
    cases rest with
    | nil => rfl
    | cons d rest =>
      show encodeLatin1HeaderValue (c :: d :: rest) = _
      rw [encodeLatin1HeaderValue, if_neg fun hseq => hlead hseq.1]
  · rw [if_neg hc]
    have hseq : ∀ c : UInt8, ¬c < 0x80 →
        (((0xC0 : UInt8) ||| (c >>> 6) = 0xC2 ∨ (0xC0 : UInt8) ||| (c >>> 6) = 0xC3) ∧
          (0x80 : UInt8) ||| (c &&& 0x3F) ≥ 0x80 ∧ (0x80 : UInt8) ||| (c &&& 0x3F) ≤ 0xBF) ∧
          latin1Byte ((0xC0 : UInt8) ||| (c >>> 6)) ((0x80 : UInt8) ||| (c &&& 0x3F)) = c :=
      forall_byte (by decide)
    show encodeLatin1HeaderValue (((0xC0 : UInt8) ||| (c >>> 6)) :: ((0x80 : UInt8) ||| (c &&& 0x3F)) :: rest) = _
    rw [encodeLatin1HeaderValue, if_pos (hseq c hc).1, (hseq c hc).2]

theorem encode_appendLatin1 (b : Bytes) : encodeLatin1HeaderValue (appendLatin1AsUtf8 [] b) = b := by
  rw [appendLatin1AsUtf8_eq, List.nil_append]
  induction b with
  | nil => rfl
  | cons c b ih => rw [List.flatMap_cons, encode_appendByte, ih]

/-- The shortcut hands over what the slow way would. -/
theorem latin1Text_eq (value : Bytes) : latin1Text value = appendLatin1AsUtf8 [] value := by
  unfold latin1Text
  split
  · next hascii =>
    rw [allAscii_iff] at hascii
    rw [appendLatin1AsUtf8_eq, List.nil_append]
    induction value with
    | nil => rfl
    | cons c value ih =>
      have hc := hascii c List.mem_cons_self
      rw [List.flatMap_cons, ← ih fun d hd => hascii d (List.mem_cons_of_mem _ hd), appendByteAsUtf8,
        if_pos hc]
      rfl
  · rfl

/-- **Header text survives both transcodings.** What a value's bytes are handed over as is put back
to those bytes, the ASCII shortcut hands over the same text, and on the way out each byte below 0x80
is one that stands at its place in the text: none of CR, LF, NUL and `;` can be gained. -/
theorem latin1_survives :
    (∀ b, encodeLatin1HeaderValue (appendLatin1AsUtf8 [] b) = b ∧
      latin1Text b = appendLatin1AsUtf8 [] b ∧ (allAscii b = true → appendLatin1AsUtf8 [] b = b)) ∧
    ∀ s, Transcodes s (encodeLatin1HeaderValue s) ∧
      (encodeLatin1HeaderValue s).filter (· < 0x80) = s.filter (· < 0x80) ∧
      ∀ c ∈ [(0x0D : UInt8), 0x0A, 0x00, 0x3B], c ∉ s → c ∉ encodeLatin1HeaderValue s := by
  constructor
  · intro b
    refine ⟨encode_appendLatin1 b, latin1Text_eq b, ?_⟩
    intro hascii
    rw [← latin1Text_eq, latin1Text, if_pos hascii]
  · intro s
    refine ⟨transcodes_encode s, (transcodes_encode s).ascii_eq, ?_⟩
    intro c hc hnot hmem
    have hlow : c < 0x80 := by
      have hall : ∀ c ∈ [(0x0D : UInt8), 0x0A, 0x00, 0x3B], c < 0x80 := by decide
      exact hall c hc
    exact hnot (mem_of_mem_encode hlow hmem)

end MojoHttp
