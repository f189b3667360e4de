import MojoHttp.Bytes
import MojoHttp.Lib.CrlfText

/-!
# What a head's writers ask of a span (`header.mojo`)

Every writer of a head asks of each name, value and phrase whether it holds CR, LF or NUL, in
overlapping vector loads, and puts values above ASCII into ISO-8859-1.

* **`spanBreaksHeaderLine_eq`** — the loads miss no byte.
* **`headerValueKind_eq`** — nor do those that ask for ASCII too.
* **`Transcodes`** — which bytes of a value become which of its latin-1 form.
* **`encodeLatin1HeaderValue_clean`** — the transcoding makes no CR, LF or NUL.
* **`latin1HeaderLine_eq`** — so a header goes out on one line of its own, or not at all.
-/

namespace MojoHttp

open CrlfText (crlf)

/-- CR, LF or NUL. -/
def breaksLine (b : UInt8) : Bool := b == 0x0D || b == 0x0A || b == 0x00

/-! ## The loads -/

/-- `reduce_min` of a vector. -/
def reduceMin (w : Bytes) : UInt8 := w.foldr min 0xFF

/-- `reduce_max` of a vector. -/
def reduceMax (w : Bytes) : UInt8 := w.foldr max 0

/-- `_breaks_line_lanes`: XOR zeroes the lanes equal to its operand. -/
def breaksLineLanes (w : Bytes) : Bool :=
  reduceMin (w.map fun c => min (min (c ^^^ 0x0D) (c ^^^ 0x0A)) c) == 0

/-- `while i + 16 <= n` of `span_breaks_header_line`; `none` is its `return True`. -/
def breaksChunks (s : Bytes) : (fuel i : Nat) → Option Nat
  | 0, i => some i
  | fuel + 1, i =>
    if i + 16 ≤ s.length then
      if breaksLineLanes (slice s i (i + 16)) then none else breaksChunks s fuel (i + 16)
    else some i

/-- `span_breaks_header_line`. -/
def spanBreaksHeaderLine (s : Bytes) : Bool :=
  let n := s.length
  if n ≥ 16 then
    match breaksChunks s n 0 with
    | none => true
    | some i => decide (i < n) && breaksLineLanes (slice s (n - 16) n)
  else if n ≥ 8 then breaksLineLanes (slice s 0 8) || breaksLineLanes (slice s (n - 8) n)
  else if n ≥ 4 then breaksLineLanes (slice s 0 4) || breaksLineLanes (slice s (n - 4) n)
  else s.any fun c => c == 0x0D || c == 0x0A || c == 0x00

def HEADER_VALUE_ASCII : Nat := 0
def HEADER_VALUE_HIGH : Nat := 1
def HEADER_VALUE_BREAKS : Nat := 2

/-- `_value_lanes`. -/
def valueLanes (w : Bytes) : Nat :=
  if breaksLineLanes w then HEADER_VALUE_BREAKS
  else if reduceMax w ≥ 0x80 then HEADER_VALUE_HIGH else HEADER_VALUE_ASCII

/-- `while i + 16 <= n` of `header_value_kind`: where it left and with what kind; an error is its
`return k`. -/
def valueChunks (s : Bytes) : (fuel i kind : Nat) → Except Nat (Nat × Nat)
  | 0, i, kind => .ok (i, kind)
  | fuel + 1, i, kind =>
    if i + 16 ≤ s.length then
      let k := valueLanes (slice s i (i + 16))
      if k = HEADER_VALUE_BREAKS then .error k else valueChunks s fuel (i + 16) (max kind k)
    else .ok (i, kind)

/-- The loop over the bytes of a short value. -/
def shortKind : Bytes → (kind : Nat) → Nat
  | [], kind => kind
  | c :: s, kind =>
    if c == 0x0D || c == 0x0A || c == 0x00 then HEADER_VALUE_BREAKS
    else shortKind s (if c ≥ 0x80 then HEADER_VALUE_HIGH else kind)

/-- `header_value_kind`. -/
def headerValueKind (s : Bytes) : Nat :=
  let n := s.length
  if n ≥ 16 then
    match valueChunks s n 0 HEADER_VALUE_ASCII with
    | .error k => k
    | .ok (i, kind) => if i < n then max kind (valueLanes (slice s (n - 16) n)) else kind
  else if n ≥ 8 then max (valueLanes (slice s 0 8)) (valueLanes (slice s (n - 8) n))
  else if n ≥ 4 then max (valueLanes (slice s 0 4)) (valueLanes (slice s (n - 4) n))
  else shortKind s HEADER_VALUE_ASCII

/-! ## What a span's bytes are -/

/-- No CR, LF or NUL. -/
def Clean (s : Bytes) : Prop := ∀ b ∈ s, breaksLine b = false

instance (s : Bytes) : Decidable (Clean s) := List.decidableBAll _ s

/-- The kind of one byte. -/
def byteKind (b : UInt8) : Nat :=
  if breaksLine b then HEADER_VALUE_BREAKS
  else if b ≥ 0x80 then HEADER_VALUE_HIGH else HEADER_VALUE_ASCII

/-- The kind of a span: its worst byte's. -/
def kindOf (s : Bytes) : Nat := (s.map byteKind).foldr max 0

theorem kindOf_le {s : Bytes} {k : Nat} : kindOf s ≤ k ↔ ∀ b ∈ s, byteKind b ≤ k := by
  induction s with
  | nil => simp [kindOf]
  | cons b s ih =>
    have hcons : kindOf (b :: s) = max (byteKind b) (kindOf s) := rfl
    rw [hcons, Nat.max_le, ih, List.forall_mem_cons]

theorem kindOf_append (a b : Bytes) : kindOf (a ++ b) = max (kindOf a) (kindOf b) := by
  apply Nat.le_antisymm
  · rw [kindOf_le, List.forall_mem_append]
    exact ⟨fun c hc => (kindOf_le.mp le_rfl c hc).trans (Nat.le_max_left _ _),
      fun c hc => (kindOf_le.mp le_rfl c hc).trans (Nat.le_max_right _ _)⟩
  · have h := List.forall_mem_append.mp (kindOf_le.mp (le_refl (kindOf (a ++ b))))
    exact Nat.max_le.mpr ⟨kindOf_le.mpr h.1, kindOf_le.mpr h.2⟩

theorem kindOf_le_two (s : Bytes) : kindOf s ≤ HEADER_VALUE_BREAKS := by
  rw [kindOf_le]
  exact fun b _ => forall_byte (P := fun b => byteKind b ≤ HEADER_VALUE_BREAKS)
    (by decide) b

/-- A part of a span is of no worse kind. -/
theorem kindOf_slice_le (s : Bytes) (a b : Nat) : kindOf (slice s a b) ≤ kindOf s :=
  kindOf_le.mpr fun c hc =>
    kindOf_le.mp le_rfl c (List.mem_of_mem_drop (List.mem_of_mem_take hc))

/-- The bytes of an ASCII span. -/
theorem lt_of_kindOf {s : Bytes} (h : kindOf s = HEADER_VALUE_ASCII) : ∀ b ∈ s, b < 0x80 := by
  have hbyte : ∀ b : UInt8, byteKind b ≤ HEADER_VALUE_ASCII → b < 0x80 :=
    forall_byte (P := fun b => byteKind b ≤ HEADER_VALUE_ASCII → b < 0x80) (by decide)
  exact fun b hb => hbyte b (kindOf_le.mp h.le b hb)

theorem clean_iff_kindOf {s : Bytes} : Clean s ↔ kindOf s ≠ HEADER_VALUE_BREAKS := by
  have hbyte : ∀ b, breaksLine b = false ↔ byteKind b ≤ HEADER_VALUE_HIGH :=
    forall_byte (P := fun b => breaksLine b = false ↔ byteKind b ≤ HEADER_VALUE_HIGH)
      (by decide)
  have hle := kindOf_le_two s
  have hiff : Clean s ↔ kindOf s ≤ HEADER_VALUE_HIGH := by
    rw [kindOf_le]
    exact forall₂_congr fun b _ => hbyte b
  rw [hiff]
  unfold HEADER_VALUE_HIGH HEADER_VALUE_BREAKS at *
  omega

theorem reduceMin_eq_zero {w : Bytes} : reduceMin w = 0 ↔ 0 ∈ w := by
  induction w with
  | nil => decide
  | cons c w ih =>
    have hcons : reduceMin (c :: w) = min c (reduceMin w) := rfl
    have hmin : ∀ a b : UInt8, min a b = 0 ↔ a = 0 ∨ b = 0 := by
      intro a b
      show (if a ≤ b then a else b) = 0 ↔ _
      split <;> simp only [UInt8.le_iff_toNat_le, ← UInt8.toNat_inj, UInt8.toNat_zero] at * <;>
        omega
    rw [hcons, hmin, ih, List.mem_cons, eq_comm]

theorem reduceMax_ge {w : Bytes} {k : UInt8} (hk : 0 < k) :
    k ≤ reduceMax w ↔ ∃ b ∈ w, k ≤ b := by
  induction w with
  | nil => exact iff_of_false (UInt8.not_le.mpr hk) (by simp)
  | cons c w ih =>
    have hcons : reduceMax (c :: w) = max c (reduceMax w) := rfl
    have hmax : ∀ a b : UInt8, k ≤ max a b ↔ k ≤ a ∨ k ≤ b := by
      intro a b
      show k ≤ (if a ≤ b then b else a) ↔ _
      split <;> simp only [UInt8.le_iff_toNat_le] at * <;> omega
    rw [hcons, hmax, ih]
    simp

/-- The lanes ask of each what `breaksLine` asks of it. -/
theorem breaksLineLanes_iff {w : Bytes} : breaksLineLanes w = true ↔ ∃ b ∈ w, breaksLine b = true := by
  have hbyte : ∀ b : UInt8, min (min (b ^^^ 0x0D) (b ^^^ 0x0A)) b = 0 ↔ breaksLine b = true :=
    forall_byte (P := fun b => min (min (b ^^^ 0x0D) (b ^^^ 0x0A)) b = 0 ↔ breaksLine b = true)
      (by decide)
  unfold breaksLineLanes
  rw [beq_iff_eq, reduceMin_eq_zero, List.mem_map]
  exact exists_congr fun b => and_congr_right fun _ => hbyte b

theorem breaksLineLanes_eq (w : Bytes) :
    breaksLineLanes w = decide (kindOf w = HEADER_VALUE_BREAKS) := by
  have hclean : Clean w ↔ ¬ breaksLineLanes w = true := by
    rw [breaksLineLanes_iff]
    simp [Clean]
  rw [clean_iff_kindOf, ← not_iff_not, not_not] at hclean
  rw [Bool.eq_iff_iff, decide_eq_true_iff]
  simpa using hclean.symm

/-- A vector's kind is its lanes' worst. -/
theorem valueLanes_eq (w : Bytes) : valueLanes w = kindOf w := by
  have hle := kindOf_le_two w
  have hhigh : reduceMax w ≥ 0x80 ↔ ¬ ∀ b ∈ w, b < 0x80 := by
    rw [ge_iff_le, reduceMax_ge (by decide)]
    simp
  have hbyte : ∀ b : UInt8, byteKind b ≤ HEADER_VALUE_ASCII → b < 0x80 :=
    forall_byte (P := fun b => byteKind b ≤ HEADER_VALUE_ASCII → b < 0x80) (by decide)
  have hbyte' : ∀ b : UInt8, b < 0x80 → breaksLine b = false → byteKind b ≤ HEADER_VALUE_ASCII :=
    forall_byte (P := fun b => b < 0x80 → breaksLine b = false → byteKind b ≤ HEADER_VALUE_ASCII)
      (by decide)
  unfold valueLanes
  rw [breaksLineLanes_eq]
  by_cases hbreaks : kindOf w = HEADER_VALUE_BREAKS
  · rw [if_pos (by simpa using hbreaks), hbreaks]
  · rw [if_neg (by simpa using hbreaks)]
    have hclean := clean_iff_kindOf.mpr hbreaks
    have hascii : kindOf w ≤ HEADER_VALUE_ASCII ↔ ∀ b ∈ w, b < 0x80 := by
      rw [kindOf_le]
      exact forall₂_congr fun b hb => ⟨hbyte b, fun h => hbyte' b h (hclean b hb)⟩
    rw [if_congr (hhigh.trans (not_congr hascii.symm)) rfl rfl]
    unfold HEADER_VALUE_ASCII HEADER_VALUE_HIGH HEADER_VALUE_BREAKS at *
    split <;> omega

theorem slice_all (s : Bytes) : slice s 0 s.length = s := by simp [slice]

/-- Two loads that together reach over the whole span. -/
theorem kindOf_overlap {s : Bytes} {a b : Nat} (hab : b ≤ a) (hlen : a ≤ s.length) :
    max (kindOf (slice s 0 a)) (kindOf (slice s b s.length)) = kindOf s := by
  apply Nat.le_antisymm
  · exact Nat.max_le.mpr ⟨kindOf_slice_le s 0 a, kindOf_slice_le s b s.length⟩
  · have hsplit : s = slice s 0 a ++ slice s a s.length := by
      rw [slice_append_slice s (Nat.zero_le a) hlen, slice_all]
    have htail : kindOf (slice s a s.length) ≤ kindOf (slice s b s.length) := by
      rw [← slice_append_slice s hab hlen, kindOf_append]
      exact Nat.le_max_right _ _
    conv_lhs => rw [hsplit, kindOf_append]
    exact max_le_max le_rfl htail

/-- A span that fits two loads of `W`. -/
theorem kindOf_two_loads {s : Bytes} {W : Nat} (hW : W ≤ s.length) (hlen : s.length ≤ 2 * W) :
    max (valueLanes (slice s 0 W)) (valueLanes (slice s (s.length - W) s.length)) = kindOf s := by
  rw [valueLanes_eq, valueLanes_eq]
  exact kindOf_overlap (by omega) hW

/-! ## The scans -/

/-- The loop of the scan stops at a break or short of the last vector. -/
theorem breaksChunks_spec {s : Bytes} {fuel i : Nat} (hi : i ≤ s.length)
    (hfuel : s.length < 16 * fuel + i) (hclean : kindOf (slice s 0 i) ≠ HEADER_VALUE_BREAKS) :
    match breaksChunks s fuel i with
    | none => kindOf s = HEADER_VALUE_BREAKS
    | some j => j ≤ s.length ∧ s.length < j + 16 ∧
      kindOf (slice s 0 j) ≠ HEADER_VALUE_BREAKS := by
  induction fuel generalizing i with
  | zero => omega
  | succ fuel ih =>
    rw [breaksChunks]
    by_cases hroom : i + 16 ≤ s.length
    · rw [if_pos hroom, breaksLineLanes_eq]
      by_cases hbreaks : kindOf (slice s i (i + 16)) = HEADER_VALUE_BREAKS
      · rw [if_pos (by simpa using hbreaks)]
        exact Nat.le_antisymm (kindOf_le_two s) (hbreaks ▸ kindOf_slice_le s i (i + 16))
      · rw [if_neg (by simpa using hbreaks)]
        refine ih hroom (by omega) ?_
        have h1 := kindOf_le_two (slice s 0 i)
        have h2 := kindOf_le_two (slice s i (i + 16))
        rw [← slice_append_slice s (Nat.zero_le i) (show i ≤ i + 16 by omega), kindOf_append]
        omega
    · rw [if_neg hroom]
      exact ⟨hi, by omega, hclean⟩

/-- A scan's `or` of two loads. -/
theorem breaks_two_loads {s : Bytes} {W : Nat} (hW : W ≤ s.length) (hlen : s.length ≤ 2 * W) :
    (breaksLineLanes (slice s 0 W) || breaksLineLanes (slice s (s.length - W) s.length)) =
      decide (kindOf s = HEADER_VALUE_BREAKS) := by
  have hover := kindOf_overlap (s := s) (a := W) (b := s.length - W) (by omega) hW
  have h1 := kindOf_le_two (slice s 0 W)
  have h2 := kindOf_le_two (slice s (s.length - W) s.length)
  rw [breaksLineLanes_eq, breaksLineLanes_eq, ← Bool.decide_or, decide_eq_decide, ← hover]
  omega

/-- The bytes of a short span. -/
theorem any_breaks_eq (s : Bytes) :
    (s.any fun c => c == 0x0D || c == 0x0A || c == 0x00) =
      decide (kindOf s = HEADER_VALUE_BREAKS) := by
  have hclean := clean_iff_kindOf (s := s)
  rw [Bool.eq_iff_iff, decide_eq_true_iff, ← not_iff_not, ← ne_eq (kindOf s), ← hclean]
  simp [Clean, breaksLine]

/-- **The scan misses no byte.** -/
theorem spanBreaksHeaderLine_eq (s : Bytes) :
    spanBreaksHeaderLine s = decide (kindOf s = HEADER_VALUE_BREAKS) := by
  unfold spanBreaksHeaderLine
  dsimp only
  by_cases h16 : s.length ≥ 16
  · rw [if_pos h16]
    have hspec := @breaksChunks_spec s s.length 0 (Nat.zero_le _) (by omega)
      (by rw [slice_self]; decide)
    cases hc : breaksChunks s s.length 0 with
    | none =>
      rw [hc] at hspec
      exact (decide_eq_true hspec).symm
    | some j =>
      rw [hc] at hspec
      obtain ⟨hj, hlast, hclean⟩ := hspec
      have hall := slice_all s
      dsimp only
      by_cases hlt : j < s.length
      · have hover := kindOf_overlap (s := s) (a := j) (b := s.length - 16) (by omega) hj
        have h1 := kindOf_le_two (slice s 0 j)
        have h2 := kindOf_le_two (slice s (s.length - 16) s.length)
        rw [decide_eq_true hlt, Bool.true_and, breaksLineLanes_eq, decide_eq_decide, ← hover]
        omega
      · have hend : j = s.length := by omega
        rw [hend, hall] at hclean
        rw [decide_eq_false hlt, Bool.false_and, decide_eq_false hclean]
  · rw [if_neg h16]
    by_cases h8 : s.length ≥ 8
    · rw [if_pos h8]
      exact breaks_two_loads h8 (by omega)
    · rw [if_neg h8]
      by_cases h4 : s.length ≥ 4
      · rw [if_pos h4]
        exact breaks_two_loads h4 (by omega)
      · rw [if_neg h4]
        exact any_breaks_eq s

/-- The loop of the kind: an early return is the worst kind, else what was seen so far. -/
theorem valueChunks_spec {s : Bytes} {fuel i kind : Nat} (hi : i ≤ s.length)
    (hfuel : s.length < 16 * fuel + i) (hkind : kind = kindOf (slice s 0 i)) :
    match valueChunks s fuel i kind with
    | .error k => k = kindOf s
    | .ok (j, k) => j ≤ s.length ∧ s.length < j + 16 ∧ k = kindOf (slice s 0 j) := by
  induction fuel generalizing i kind with
  | zero => omega
  | succ fuel ih =>
    rw [valueChunks]
    by_cases hroom : i + 16 ≤ s.length
    · rw [if_pos hroom, valueLanes_eq]
      dsimp only
      by_cases hbreaks : kindOf (slice s i (i + 16)) = HEADER_VALUE_BREAKS
      · rw [if_pos hbreaks, hbreaks]
        exact Nat.le_antisymm (hbreaks ▸ kindOf_slice_le s i (i + 16)) (kindOf_le_two s)
      · rw [if_neg hbreaks]
        refine ih hroom (by omega) ?_
        rw [hkind, ← kindOf_append, slice_append_slice s (Nat.zero_le i) (by omega)]
    · rw [if_neg hroom]
      exact ⟨hi, by omega, hkind⟩

theorem shortKind_eq {s : Bytes} {kind : Nat} (hkind : kind ≤ HEADER_VALUE_HIGH) :
    shortKind s kind = max kind (kindOf s) := by
  induction s generalizing kind with
  | nil => exact (Nat.max_zero kind).symm
  | cons c s ih =>
    have hcons : kindOf (c :: s) = max (byteKind c) (kindOf s) := rfl
    have hle := kindOf_le_two s
    rw [shortKind, hcons]
    have hbreaks : (c == 0x0D || c == 0x0A || c == 0x00) = breaksLine c := rfl
    rw [hbreaks]
    unfold byteKind
    unfold HEADER_VALUE_HIGH HEADER_VALUE_BREAKS HEADER_VALUE_ASCII at *
    cases breaksLine c with
    | true =>
      rw [if_pos rfl, if_pos rfl]
      omega
    | false =>
      rw [if_neg Bool.false_ne_true, if_neg Bool.false_ne_true]
      by_cases hhigh : c ≥ 0x80
      · rw [if_pos hhigh, if_pos hhigh, ih (le_refl 1)]
        omega
      · rw [if_neg hhigh, if_neg hhigh, ih hkind]
        omega

/-- **The kind is that of the worst byte.** -/
theorem headerValueKind_eq (s : Bytes) : headerValueKind s = kindOf s := by
  unfold headerValueKind
  dsimp only
  by_cases h16 : s.length ≥ 16
  · rw [if_pos h16]
    have hspec := @valueChunks_spec s s.length 0 HEADER_VALUE_ASCII (Nat.zero_le _) (by omega)
      (by rw [slice_self]; rfl)
    cases hc : valueChunks s s.length 0 HEADER_VALUE_ASCII with
    | error k =>
      rw [hc] at hspec
      exact hspec
    | ok r =>
      obtain ⟨j, k⟩ := r
      rw [hc] at hspec
      obtain ⟨hj, hlast, hk⟩ := hspec
      dsimp only
      by_cases hlt : j < s.length
      · rw [if_pos hlt, valueLanes_eq, hk]
        exact kindOf_overlap (by omega) hj
      · rw [if_neg hlt, hk, show j = s.length from by omega, slice_all]
  · rw [if_neg h16]
    by_cases h8 : s.length ≥ 8
    · rw [if_pos h8]
      exact kindOf_two_loads h8 (by omega)
    · rw [if_neg h8]
      by_cases h4 : s.length ≥ 4
      · rw [if_pos h4]
        exact kindOf_two_loads h4 (by omega)
      · rw [if_neg h4, shortKind_eq (by decide)]
        exact Nat.zero_max _

/-! ## ISO-8859-1 -/

/-- The byte a sequence becomes. -/
def latin1Byte (b b2 : UInt8) : UInt8 := ((b &&& 0x03) <<< 6) ||| (b2 &&& 0x3F)

/-- It is above ASCII, so no line break. -/
theorem latin1Byte_clean {b : UInt8} (hb : b = 0xC2 ∨ b = 0xC3) (b2 : UInt8) :
    breaksLine (latin1Byte b b2) = false := by
  rcases hb with rfl | rfl
  · exact forall_byte (P := fun b2 => breaksLine (latin1Byte 0xC2 b2) = false)
      (by decide) b2
  · exact forall_byte (P := fun b2 => breaksLine (latin1Byte 0xC3 b2) = false)
      (by decide) b2

/-- `encode_latin1_header_value`: the two-byte sequences `C2 80` to `C3 BF` become their one
byte, every other byte goes out as it came in. -/
def encodeLatin1HeaderValue : Bytes → Bytes
  | [] => []
  | [b] => [b]
  | b :: b2 :: utf8 =>
    if (b = 0xC2 ∨ b = 0xC3) ∧ b2 ≥ 0x80 ∧ b2 ≤ 0xBF then
      latin1Byte b b2 :: encodeLatin1HeaderValue utf8
    else b :: encodeLatin1HeaderValue (b2 :: utf8)

/-- **The transcoding makes no CR, LF or NUL.** -/
theorem encodeLatin1HeaderValue_clean {s : Bytes} (h : Clean s) :
    Clean (encodeLatin1HeaderValue s) := by
  induction s using encodeLatin1HeaderValue.induct with
  | case1 => exact h
  | case2 b => exact h
  | case3 b b2 utf8 hseq ih =>
    rw [encodeLatin1HeaderValue, if_pos hseq]
    refine List.forall_mem_cons.mpr ⟨latin1Byte_clean hseq.1 b2, ih fun c hc => h c ?_⟩
    exact List.mem_cons_of_mem _ (List.mem_cons_of_mem _ hc)
  | case4 b b2 utf8 hseq ih =>
    rw [encodeLatin1HeaderValue, if_neg hseq]
    exact List.forall_mem_cons.mpr ⟨h b List.mem_cons_self,
      ih fun c hc => h c (List.mem_cons_of_mem _ hc)⟩

/-- ASCII goes out as it is. -/
theorem encodeLatin1HeaderValue_ascii {s : Bytes} (h : ∀ b ∈ s, b < 0x80) :
    encodeLatin1HeaderValue s = s := by
  induction s using encodeLatin1HeaderValue.induct with
  | case1 => rfl
  | case2 b => rfl
  | case3 b b2 utf8 hseq ih =>
    -- no lead byte of a sequence is ASCII
    have hb := h b List.mem_cons_self
    rcases hseq.1 with rfl | rfl <;> exact absurd hb (by decide)
  | case4 b b2 utf8 hseq ih =>
    rw [encodeLatin1HeaderValue, if_neg hseq, ih fun c hc => h c (List.mem_cons_of_mem _ hc)]

/-- The latin-1 form of a text, byte by byte: a byte is kept, or two bytes above ASCII become one. -/
inductive Transcodes : Bytes → Bytes → Prop where
  | nil : Transcodes [] []
  | kept (b : UInt8) {s t : Bytes} (h : Transcodes s t) : Transcodes (b :: s) (b :: t)
  | joined {lead cont c : UInt8} {s t : Bytes} (hlead : 0x80 ≤ lead) (hcont : 0x80 ≤ cont)
      (hc : 0x80 ≤ c) (h : Transcodes s t) : Transcodes (lead :: cont :: s) (c :: t)

theorem transcodes_encode (s : Bytes) : Transcodes s (encodeLatin1HeaderValue s) := by
  induction s using encodeLatin1HeaderValue.induct with
  | case1 => exact .nil
  | case2 b => exact .kept b .nil
  | case3 b b2 utf8 hseq ih =>
    rw [encodeLatin1HeaderValue, if_pos hseq]
    have hhigh : ∀ b : UInt8, b = 0xC2 ∨ b = 0xC3 → 0x80 ≤ b ∧ ∀ b2, 0x80 ≤ b2 → 0x80 ≤ latin1Byte b b2 := by
      rintro b (rfl | rfl)
      · exact ⟨by decide, forall_byte (by decide)⟩
      · exact ⟨by decide, forall_byte (by decide)⟩
    obtain ⟨hb, hbyte⟩ := hhigh b hseq.1
    exact .joined hb hseq.2.1 (hbyte b2 hseq.2.1) ih
  | case4 b b2 utf8 hseq ih =>
    rw [encodeLatin1HeaderValue, if_neg hseq]
    exact .kept b ih

/-- The ASCII bytes are those of the text, in their order. -/
theorem Transcodes.ascii_eq {s t : Bytes} (h : Transcodes s t) :
    t.filter (· < 0x80) = s.filter (· < 0x80) := by
  induction h with
  | nil => rfl
  | kept b _ ih => rw [List.filter_cons, List.filter_cons, ih]
  | joined hlead hcont hc _ ih =>
    have hhigh : ∀ (b : UInt8) (u : Bytes), 0x80 ≤ b → (b :: u).filter (· < 0x80) = u.filter (· < 0x80) := by
      intro b u hb
      refine List.filter_cons_of_neg ?_
      rw [decide_eq_true_eq]
      exact UInt8.not_lt.mpr hb
    rw [hhigh _ _ hc, hhigh _ _ hlead, hhigh _ _ hcont, ih]

/-- An ASCII byte stands in the latin-1 form only if it stands in the text. -/
theorem mem_of_mem_encode {s : Bytes} {c : UInt8} (hc : c < 0x80)
    (h : c ∈ encodeLatin1HeaderValue s) : c ∈ s := by
  have hfilter : c ∈ (encodeLatin1HeaderValue s).filter (· < 0x80) :=
    List.mem_filter.mpr ⟨h, decide_eq_true hc⟩
  rw [(transcodes_encode s).ascii_eq] at hfilter
  exact (List.mem_filter.mp hfilter).1

/-! ## One line -/

/-- `write_header_line`. -/
def headerLine (name value : Bytes) : Bytes :=
  name ++ [BytesConstant.COLON, BytesConstant.whitespace] ++ value ++
    crlf

/-- One header in latin-1, or nothing for a value that breaks the line, before the transcoding or
after it: the body of `_write_set_cookie_latin1` and of the loop of `Headers.write_latin1_to`. -/
def latin1HeaderLine (name value : Bytes) : Bytes :=
  let kind := headerValueKind value
  if kind = HEADER_VALUE_BREAKS then []
  else if kind = HEADER_VALUE_ASCII then headerLine name value
  else
    let latin1 := encodeLatin1HeaderValue value
    if spanBreaksHeaderLine latin1 then [] else headerLine name latin1

/-- A header's line, its value in latin-1, without the line end. -/
def fieldLine (name value : Bytes) : Bytes :=
  name ++ (ascii ": " ++ encodeLatin1HeaderValue value)

/-- **A value goes out on one line of its own, or not at all.** -/
theorem latin1HeaderLine_eq (name value : Bytes) :
    latin1HeaderLine name value =
      if Clean value then fieldLine name value ++ crlf else [] := by
  have hline : ∀ v, headerLine name v = name ++ (ascii ": " ++ v) ++ crlf := by
    intro v
    rw [headerLine, show ascii ": " = [BytesConstant.COLON, BytesConstant.whitespace] from by
      decide]
    simp only [List.append_assoc]
  unfold latin1HeaderLine fieldLine
  dsimp only
  rw [headerValueKind_eq]
  by_cases hclean : Clean value
  · rw [if_pos hclean, if_neg (clean_iff_kindOf.mp hclean)]
    by_cases hascii : kindOf value = HEADER_VALUE_ASCII
    · rw [if_pos hascii, hline, encodeLatin1HeaderValue_ascii (lt_of_kindOf hascii)]
    · -- the second look finds nothing: the transcoding makes no break
      have hlatin := clean_iff_kindOf.mp (encodeLatin1HeaderValue_clean hclean)
      rw [if_neg hascii, spanBreaksHeaderLine_eq, if_neg (by simpa using hlatin), hline]
  · rw [if_neg hclean, if_pos (by simpa using (not_congr clean_iff_kindOf).mp hclean)]

end MojoHttp
