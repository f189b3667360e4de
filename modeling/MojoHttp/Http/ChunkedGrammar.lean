import MojoHttp.Http.ChunkedSplit
import MojoHttp.Lib.CrlfText

/-!
# The grammar of a chunked body

What the decoder accepts, written as RFC 9112 §7.1 writes it and without a decoder: chunks, the
last chunk, the trailer lines, an empty line. The grammar takes the bytes an extension and a
trailer's value may hold as parameters; the decoder's own choice refuses control bytes and DEL in
both.

* **`ChunkedText`** — `s` is a chunked body with decoded bytes `data` and `rest` behind it.
* **`lang_cons`** — the language of each phase satisfies the machine's equation.
* **`decode_complete_iff`** — the decoder completes exactly the bodies of its grammar.
* **`Visits`** — every state of the loop a call goes through; none lets the size overflow.
-/

namespace MojoHttp

open BytesConstant Resumable
open CrlfText (crlf)

/-! ## The grammar -/

def isHexDigit (b : UInt8) : Bool := (decodeHex b).isSome

/-- The number some hex digits go on with. -/
def hexValue (value : Nat) (digits : Bytes) : Nat :=
  digits.foldl (fun v b => v * 16 + (decodeHex b).getD 0) value

/-- The largest chunk size: an `Int` holds no larger one. -/
def maxChunkSize : Nat := 2 ^ 63 - 1

section Grammar

variable (extByte valueByte : UInt8 → Bool)

/-- `chunk-size [ chunk-ext ]`: hex digits, optional whitespace, an optional extension. -/
structure SizeLine (value : Nat) (line : Bytes) : Prop where
  parts : ∃ digits blanks ext, line = digits ++ (blanks ++ ext) ∧
    (digits ≠ [] ∧ (∀ b ∈ digits, isHexDigit b = true) ∧ hexValue 0 digits = value) ∧
    (∀ b ∈ blanks, isOws b = true) ∧
    (ext = [] ∨ ∃ es, ext = SEMICOLON :: es ∧ ∀ b ∈ es, extByte b = true)
  le : value ≤ maxChunkSize

/-- A trailer line: a token, a colon, a value. -/
def TrailerLine (line : Bytes) : Prop :=
  ∃ name value, line = name ++ COLON :: value ∧ name ≠ [] ∧ (∀ b ∈ name, isTokenChar b = true) ∧
    ∀ b ∈ value, valueByte b = true

/-- A chunk: its size line, its data. -/
structure IsChunk (c : Bytes × Bytes) : Prop where
  line : SizeLine extByte c.2.length c.1
  ne_nil : c.2 ≠ []

/-- The text of a chunk. -/
def chunkText (c : Bytes × Bytes) : Bytes := c.1 ++ crlf ++ c.2 ++ crlf

/-- `chunks ++ last-chunk ++ trailers ++ CRLF`, then `rest`; the chunks' data is `data`. -/
def ChunkedText (s data rest : Bytes) : Prop :=
  ∃ (chunks : List (Bytes × Bytes)) (last : Bytes) (trailers : List Bytes),
    (∀ c ∈ chunks, IsChunk extByte c) ∧ SizeLine extByte 0 last ∧
    (∀ t ∈ trailers, TrailerLine valueByte t) ∧
    s = chunks.flatMap chunkText ++ (last ++ crlf) ++ trailers.flatMap (· ++ crlf) ++ crlf ++ rest ∧
    data = chunks.flatMap (·.2)

end Grammar

/-! ## The language of a phase -/

/-- The byte `b`, then a word of `K`. -/
def Byte (b : UInt8) (K : Bytes → Prop) (s : Bytes) : Prop := ∃ t, s = b :: t ∧ K t

@[simp] theorem byte_nil {b : UInt8} {K : Bytes → Prop} : ¬ Byte b K [] := fun ⟨_, h, _⟩ => by
  cases h

@[simp] theorem byte_cons {a b : UInt8} {K : Bytes → Prop} {s : Bytes} :
    Byte b K (a :: s) ↔ a = b ∧ K s := by
  refine ⟨fun ⟨t, heq, hK⟩ => ?_, fun ⟨hab, hK⟩ => ⟨s, by rw [hab], hK⟩⟩
  injection heq with hab hst
  exact ⟨hab, hst ▸ hK⟩

/-- A line end, then a word of `K`. -/
def Crlf (K : Bytes → Prop) : Bytes → Prop := Byte CR (Byte LF K)

theorem crlf_iff {K : Bytes → Prop} {s : Bytes} : Crlf K s ↔ ∃ t, s = crlf ++ t ∧ K t := by
  refine ⟨fun ⟨t, hs, u, ht, hK⟩ => ⟨u, by rw [hs, ht]; rfl, hK⟩, fun ⟨t, hs, hK⟩ => ?_⟩
  exact ⟨LF :: t, hs, t, rfl, hK⟩

/-- The bytes an extension may hold, as the decoder has them. -/
def extByte (b : UInt8) : Bool := !badInExt b

/-- The bytes a trailer's value may hold, as the decoder has them. -/
def valueByte (b : UInt8) : Bool := !badInTrailer b

section Language

variable (rest : Bytes)

/-- From a trailer line's start to the end of the body. -/
def InTrailers (s : Bytes) : Prop :=
  ∃ trailers : List Bytes, (∀ t ∈ trailers, TrailerLine valueByte t) ∧
    s = trailers.flatMap (· ++ crlf) ++ crlf ++ rest

/-- From a trailer's value. -/
def InValue : Bytes → Prop := Span (valueByte · = true) (Crlf (InTrailers rest))

/-- From inside a trailer's name. -/
def InName : Bytes → Prop := Span (isTokenChar · = true) (Byte COLON (InValue rest))

/-- From a size line's start. -/
def InBody (out s : Bytes) : Prop := ChunkedText extByte valueByte s out rest

/-- Behind the size line of a chunk of `value` bytes. -/
def BehindLine : (value : Nat) → (out : Bytes) → Bytes → Prop
  | 0, out, s => out = [] ∧ InTrailers rest s
  | more + 1, out, s => ∃ d t out', d.length = more + 1 ∧ s = d ++ t ∧ out = d ++ out' ∧
    Crlf (InBody rest out') t

/-- From inside an extension. -/
def InExt (value : Nat) (out : Bytes) : Bytes → Prop :=
  Span (extByte · = true) (Crlf (BehindLine rest value out))

/-- Behind the digits. -/
def BehindDigits (value : Nat) (out : Bytes) : Bytes → Prop :=
  Span (isOws · = true) fun t =>
    Crlf (BehindLine rest value out) t ∨ Byte SEMICOLON (InExt rest value out) t

/-- What is still to come in a phase, up to `rest`, and what it decodes to. -/
def Lang : Phase → Bytes → (out : Bytes) → Prop
  | .size started value, s, out => ∃ digits t, (∀ b ∈ digits, isHexDigit b = true) ∧
    (started = true ∨ digits ≠ []) ∧ (digits ≠ [] → hexValue value digits ≤ maxChunkSize) ∧
    s = digits ++ t ∧ BehindDigits rest (hexValue value digits) out t
  | .sizeEnd value, s, out => BehindDigits rest value out s
  | .ext value, s, out => InExt rest value out s
  | .headerLf value, s, out => Byte LF (BehindLine rest value out) s
  | .data more, s, out => BehindLine rest (more + 1) out s
  | .dataCr, s, out => Crlf (InBody rest out) s
  | .dataLf, s, out => Byte LF (InBody rest out) s
  | .trailerHead, s, out => out = [] ∧ InTrailers rest s
  | .trailerName, s, out => out = [] ∧ InName rest s
  | .trailerValue, s, out => out = [] ∧ InValue rest s
  | .trailerLf, s, out => out = [] ∧ Byte LF (InTrailers rest) s
  | .endLf, s, out => out = [] ∧ Byte LF (· = rest) s

/-- The trailers end, or a line comes first. -/
theorem inTrailers_iff {s : Bytes} :
    InTrailers rest s ↔ Crlf (· = rest) s ∨
      ∃ b t, s = b :: t ∧ isTokenChar b = true ∧ InName rest t := by
  refine ⟨fun ⟨trailers, hlines, hs⟩ => ?_, fun h => ?_⟩
  · cases trailers with
    | nil =>
      rw [crlf_iff]
      exact Or.inl ⟨rest, by simpa using hs, rfl⟩
    | cons line trailers =>
      obtain ⟨name, value, hline, hne, htoken, hvalue⟩ := hlines line (by simp)
      cases name with
      | nil => exact absurd rfl hne
      | cons b name =>
        refine Or.inr ⟨b, name ++ COLON :: (value ++ (crlf ++ (trailers.flatMap (· ++ crlf) ++
          crlf ++ rest))), ?_, htoken b (by simp), name, _, fun c hc => htoken c (by simp [hc]),
          rfl, _, rfl, value, _, hvalue, rfl, ?_⟩
        · rw [hs, hline]
          simp [List.append_assoc]
        · rw [crlf_iff]
          exact ⟨_, rfl, trailers, fun t ht => hlines t (by simp [ht]), rfl⟩
  · rcases h with hend | ⟨b, t, hs, hb, name, t1, htoken, ht, t2, ht1, value, t3, hvalue, ht2, h3⟩
    · rw [crlf_iff] at hend
      obtain ⟨t, hs, rfl⟩ := hend
      exact ⟨[], by simp, by simpa using hs⟩
    · rw [crlf_iff] at h3
      obtain ⟨t4, ht3, trailers, hlines, ht4⟩ := h3
      refine ⟨(b :: name ++ COLON :: value) :: trailers, fun line hline => ?_, ?_⟩
      · rcases List.mem_cons.mp hline with rfl | hline
        · refine ⟨b :: name, value, rfl, List.cons_ne_nil _ _, fun c hc => ?_, hvalue⟩
          rcases List.mem_cons.mp hc with rfl | hc
          · exact hb
          · exact htoken c hc
        · exact hlines line hline
      · rw [hs, ht, ht1, ht2, ht3, ht4]
        simp [List.append_assoc]

/-- The body is a size line and what follows it. -/
theorem inBody_iff {out s : Bytes} :
    InBody rest out s ↔ ∃ line value t, SizeLine extByte value line ∧ s = line ++ (crlf ++ t) ∧
      BehindLine rest value out t := by
  refine ⟨fun ⟨chunks, last, trailers, hchunks, hlast, htrailers, hs, hout⟩ => ?_, fun h => ?_⟩
  · cases chunks with
    | nil =>
      exact ⟨last, 0, _, hlast, by simpa [List.append_assoc] using hs, hout, trailers, htrailers,
        rfl⟩
    | cons c chunks =>
      have hc := hchunks c (by simp)
      refine ⟨c.1, c.2.length, c.2 ++ (crlf ++ (chunks.flatMap chunkText ++ (last ++ crlf) ++
        trailers.flatMap (· ++ crlf) ++ crlf ++ rest)), hc.line, ?_, ?_⟩
      · rw [hs, List.flatMap_cons, chunkText]
        simp only [List.append_assoc]
      · cases hlen : c.2.length with
        | zero => exact absurd (List.eq_nil_of_length_eq_zero hlen) hc.ne_nil
        | succ more =>
          refine ⟨c.2, _, chunks.flatMap (·.2), hlen, rfl, ?_, ?_⟩
          · rw [hout, List.flatMap_cons]
          · rw [crlf_iff]
            exact ⟨_, rfl, chunks, last, trailers, fun c' hc' => hchunks c' (by simp [hc']),
              hlast, htrailers, rfl, rfl⟩
  · obtain ⟨line, value, t, hline, hs, hbehind⟩ := h
    cases value with
    | zero =>
      obtain ⟨hout, trailers, htrailers, ht⟩ := hbehind
      refine ⟨[], line, trailers, by simp, hline, htrailers, ?_, hout⟩
      rw [hs, ht]
      simp [List.append_assoc]
    | succ more =>
      obtain ⟨d, t1, out', hlen, ht, hout, hbody⟩ := hbehind
      rw [crlf_iff] at hbody
      obtain ⟨t2, ht1, chunks, last, trailers, hchunks, hlast, htrailers, ht2, hout'⟩ := hbody
      refine ⟨(line, d) :: chunks, last, trailers, fun c hc => ?_, hlast, htrailers, ?_, ?_⟩
      · rcases List.mem_cons.mp hc with rfl | hc
        · exact ⟨hlen ▸ hline, List.ne_nil_of_length_eq_add_one hlen⟩
        · exact hchunks c hc
      · rw [hs, ht, ht1, ht2, List.flatMap_cons, chunkText]
        simp only [List.append_assoc]
      · rw [hout, hout', List.flatMap_cons]

/-! ### Phase by phase -/

/-- What the machine goes on with. -/
def Goes (s out : Bytes) : Next Phase UInt8 Bool → Prop
  | .go p o => ∃ out', out = o ++ out' ∧ Lang rest p s out'
  | .halt t => t = true ∧ s = rest ∧ out = []

theorem goes_go {s out : Bytes} {p : Phase} : Goes rest s out (.go p []) ↔ Lang rest p s out :=
  ⟨fun ⟨out', hout, h⟩ => by rw [hout]; exact h, fun h => ⟨out, rfl, h⟩⟩

theorem goes_bad {s out : Bytes} : ¬ Goes rest s out (.halt false) := fun h => by cases h.1

/-- A byte wanted. -/
theorem goes_wants {want b : UInt8} {s out : Bytes} {n : Next Phase UInt8 Bool} :
    Goes rest s out (Phase.wants want b n) ↔ b = want ∧ Goes rest s out n := by
  unfold Phase.wants
  by_cases hb : b = want
  · rw [if_pos hb]
    exact (and_iff_right hb).symm
  · rw [if_neg hb]
    exact iff_of_false (goes_bad rest) (fun h => hb h.1)

theorem goes_afterSizeLine {value : Nat} {s out : Bytes} :
    Goes rest s out (Phase.afterSizeLine true value) ↔ BehindLine rest value out s := by
  cases value with
  | zero => exact goes_go rest
  | succ more => exact goes_go rest

theorem extByte_iff {b : UInt8} : extByte b = true ↔ badInExt b = false := by simp [extByte]

theorem valueByte_iff {b : UInt8} : valueByte b = true ↔ badInTrailer b = false := by
  simp [valueByte]

/-- What scans to `stop`: the bytes before it are no stop themselves. -/
theorem span_stop {ok : UInt8 → Bool} {stop b : UInt8} {K : Bytes → Prop} {s : Bytes}
    (hstop : ok stop = false) :
    Span (ok · = true) (Byte stop K) (b :: s) ↔
      if b = stop then K s else ok b = true ∧ Span (ok · = true) (Byte stop K) s := by
  rw [span_cons, byte_cons]
  by_cases hb : b = stop
  · rw [if_pos hb, hb, hstop]
    simp
  · rw [if_neg hb]
    simp [hb]

theorem inExt_cons {value : Nat} {out s : Bytes} {b : UInt8} :
    InExt rest value out (b :: s) ↔ Goes rest s out ((Phase.ext value).next true b) := by
  refine (span_stop (by decide)).trans ?_
  show _ ↔ Goes rest s out (if b = CR then _ else if badInExt b then _ else _)
  by_cases hb : b = CR
  · rw [if_pos hb, if_pos hb]
    exact (goes_go rest (p := .headerLf value)).symm
  · rw [if_neg hb, if_neg hb, extByte_iff]
    cases hbad : badInExt b with
    | true => exact iff_of_false (by simp) (goes_bad rest)
    | false =>
      rw [if_neg Bool.false_ne_true, goes_go]
      exact and_iff_right rfl

theorem inValue_cons {out s : Bytes} {b : UInt8} :
    (out = [] ∧ InValue rest (b :: s)) ↔ Goes rest s out (Phase.trailerValue.next true b) := by
  refine (and_congr_right fun _ => span_stop (by decide)).trans ?_
  show _ ↔ Goes rest s out (if b = CR then _ else if badInTrailer b then _ else _)
  by_cases hb : b = CR
  · rw [if_pos hb, if_pos hb]
    exact (goes_go rest (p := .trailerLf)).symm
  · rw [if_neg hb, if_neg hb, valueByte_iff]
    cases hbad : badInTrailer b with
    | true => exact iff_of_false (by simp) (goes_bad rest)
    | false =>
      rw [if_neg Bool.false_ne_true, goes_go]
      exact and_congr_right fun _ => and_iff_right rfl

theorem inName_cons {out s : Bytes} {b : UInt8} :
    (out = [] ∧ InName rest (b :: s)) ↔ Goes rest s out (Phase.trailerName.next true b) := by
  refine (and_congr_right fun _ => span_stop (by decide)).trans ?_
  show _ ↔ Goes rest s out (if b = COLON then _ else if isTokenChar b then _ else _)
  by_cases hb : b = COLON
  · rw [if_pos hb, if_pos hb]
    exact (goes_go rest (p := .trailerValue)).symm
  · rw [if_neg hb, if_neg hb]
    cases htok : isTokenChar b with
    | false => exact iff_of_false (by simp) (goes_bad rest)
    | true =>
      rw [if_pos rfl, goes_go]
      exact and_congr_right fun _ => and_iff_right rfl

theorem inTrailers_cons {out s : Bytes} {b : UInt8} :
    (out = [] ∧ InTrailers rest (b :: s)) ↔ Goes rest s out (Phase.trailerHead.next true b) := by
  rw [inTrailers_iff, Crlf, byte_cons]
  show _ ↔ Goes rest s out (if b = CR then _ else if isTokenChar b then _ else _)
  by_cases hb : b = CR
  · rw [if_pos hb, goes_go, hb]
    refine and_congr_right fun _ => ⟨fun h => ?_, fun h => Or.inl ⟨rfl, h⟩⟩
    rcases h with ⟨-, h⟩ | ⟨c, t, heq, htok, -⟩
    · exact h
    · -- CR is no token character
      injection heq with hc
      rw [← hc] at htok
      exact absurd htok (by decide)
  · rw [if_neg hb]
    cases htok : isTokenChar b with
    | false =>
      refine iff_of_false ?_ (goes_bad rest)
      rintro ⟨-, ⟨hcr, -⟩ | ⟨c, t, heq, htok', -⟩⟩
      · exact hb hcr
      · injection heq with hc
        rw [← hc, htok] at htok'
        exact Bool.false_ne_true htok'
    | true =>
      rw [if_pos rfl, goes_go]
      refine and_congr_right fun _ => ⟨fun h => ?_, fun h => Or.inr ⟨b, s, rfl, htok, h⟩⟩
      rcases h with ⟨hcr, -⟩ | ⟨c, t, heq, -, h⟩
      · exact absurd hcr hb
      · injection heq with _ ht
        exact ht ▸ h

theorem behindDigits_cons {value : Nat} {out s : Bytes} {b : UInt8} :
    BehindDigits rest value out (b :: s) ↔ Goes rest s out (Phase.afterDigits value b) := by
  unfold BehindDigits Phase.afterDigits
  rw [span_cons, Crlf, byte_cons, byte_cons]
  have hows : isOws b = true ↔ b = whitespace ∨ b = TAB := by simp [isOws]
  by_cases hblank : b = whitespace ∨ b = TAB
  · have hne : b ≠ CR ∧ b ≠ SEMICOLON := by
      rcases hblank with rfl | rfl <;> decide
    rw [if_pos hblank, goes_go, hows]
    simp only [eq_true hblank, eq_false hne.1, eq_false hne.2, false_and, or_self, false_or,
      true_and]
    rfl
  · rw [if_neg hblank, hows]
    by_cases hsemi : b = SEMICOLON
    · have hne : b ≠ CR := by rw [hsemi]; decide
      rw [if_pos hsemi, goes_go]
      simp only [eq_false hblank, eq_false hne, eq_true hsemi, false_and, or_false, false_or,
        true_and]
      rfl
    · rw [if_neg hsemi]
      by_cases hcr : b = CR
      · rw [if_pos hcr, goes_go]
        simp only [eq_false hblank, eq_true hcr, eq_false hsemi, false_and, or_false, true_and]
        rfl
      · rw [if_neg hcr]
        exact iff_of_false (by simp [hblank, hcr, hsemi]) (goes_bad rest)

theorem hexValue_cons (value : Nat) (b : UInt8) (digits : Bytes) :
    hexValue value (b :: digits) = hexValue (value * 16 + (decodeHex b).getD 0) digits := rfl

theorem le_hexValue (value : Nat) (digits : Bytes) : value ≤ hexValue value digits := by
  induction digits generalizing value with
  | nil => exact le_rfl
  | cons b digits ih =>
    have h := ih (value * 16 + (decodeHex b).getD 0)
    rw [hexValue_cons]
    omega

/-- A byte that is no digit ends the digits. -/
theorem lang_size_of_none {started : Bool} {value : Nat} {out s : Bytes} {b : UInt8}
    (hhex : decodeHex b = none) :
    Lang rest (.size started value) (b :: s) out ↔
      started = true ∧ BehindDigits rest value out (b :: s) := by
  refine ⟨fun ⟨digits, t, hdigits, hstarted, _, heq, h⟩ => ?_,
    fun ⟨hstarted, h⟩ => ⟨[], b :: s, by simp, Or.inl hstarted, by simp, rfl, h⟩⟩
  cases digits with
  | nil =>
    rw [List.nil_append] at heq
    exact ⟨hstarted.resolve_right (by simp), heq ▸ h⟩
  | cons c digits =>
    injection heq with hbc _
    have hc := hdigits c (by simp)
    rw [← hbc, isHexDigit, hhex] at hc
    cases hc

/-- A digit goes on with the digits, below the limit. -/
theorem lang_size_of_some {started : Bool} {value v : Nat} {out s : Bytes} {b : UInt8}
    (hhex : decodeHex b = some v) :
    Lang rest (.size started value) (b :: s) out ↔
      value < 2 ^ 59 ∧ Lang rest (.size true (value * 16 + v)) s out := by
  have hv : v < 16 := decodeHex_lt b v hhex
  have hcons : ∀ digits, hexValue value (b :: digits) = hexValue (value * 16 + v) digits := by
    intro digits
    rw [hexValue_cons, hhex]
    rfl
  refine ⟨fun ⟨digits, t, hdigits, hstarted, hle, heq, h⟩ => ?_,
    fun ⟨hlt, digits, t, hdigits, _, hle, heq, h⟩ => ?_⟩
  · cases digits with
    | nil =>
      -- `b` is a digit: it does not stand behind them
      rw [List.nil_append] at heq
      rw [← heq, behindDigits_cons] at h
      have hends : endsSize b = false := by
        by_contra hne
        rw [decodeHex_eq_none_of_endsSize b (by simpa using hne)] at hhex
        cases hhex
      rw [afterDigits_of_not_endsSize _ hends] at h
      exact absurd h (goes_bad rest)
    | cons c digits =>
      injection heq with hbc ht
      subst hbc
      have hmax := hle (by simp)
      rw [hcons] at hmax h
      have hge := le_hexValue (value * 16 + v) digits
      refine ⟨?_, digits, t, fun c hc => hdigits c (by simp [hc]), Or.inl rfl, fun _ => hmax, ht, h⟩
      unfold maxChunkSize at hmax
      omega
  · refine ⟨b :: digits, t, fun c hc => ?_, Or.inr (by simp), fun _ => ?_, by rw [heq]; rfl, ?_⟩
    · rcases List.mem_cons.mp hc with rfl | hc
      · rw [isHexDigit, hhex]
        rfl
      · exact hdigits c hc
    · rw [hcons]
      cases digits with
      | nil =>
        show value * 16 + v ≤ maxChunkSize
        unfold maxChunkSize
        omega
      | cons c digits => exact hle (by simp)
    · rw [hcons]
      exact h

theorem lang_size_cons {started : Bool} {value : Nat} {out s : Bytes} {b : UInt8} :
    Lang rest (.size started value) (b :: s) out ↔
      Goes rest s out ((Phase.size started value).next true b) := by
  cases hhex : decodeHex b with
  | none =>
    have hn : (Phase.size started value).next true b =
        if started then Phase.afterDigits value b else .halt false := by
      simp only [Phase.next, hhex]
    rw [lang_size_of_none rest hhex, hn, behindDigits_cons]
    cases started with
    | true => exact and_iff_right rfl
    | false => exact iff_of_false (by simp) (goes_bad rest)
  | some v =>
    have hn : (Phase.size started value).next true b =
        if value < 2 ^ 59 then .go (.size true (value * 16 + v)) [] else .halt false := by
      simp only [Phase.next, hhex]
    rw [lang_size_of_some rest hhex, hn]
    by_cases hlt : value < 2 ^ 59
    · rw [if_pos hlt, goes_go]
      exact and_iff_right hlt
    · rw [if_neg hlt]
      exact iff_of_false (fun h => hlt h.1) (goes_bad rest)

theorem lang_data_cons {more : Nat} {out s : Bytes} {b : UInt8} :
    Lang rest (.data more) (b :: s) out ↔ Goes rest s out ((Phase.data more).next true b) := by
  cases more with
  | zero =>
    refine ⟨fun ⟨d, t, out', hlen, heq, hout, h⟩ => ?_, fun ⟨out', hout, h⟩ => ?_⟩
    · obtain ⟨c, rfl⟩ := List.length_eq_one_iff.mp hlen
      injection heq with hbc ht
      exact ⟨out', by rw [hout, hbc], ht ▸ h⟩
    · exact ⟨[b], s, out', rfl, rfl, hout, h⟩
  | succ more =>
    refine ⟨fun ⟨d, t, out', hlen, heq, hout, h⟩ => ?_,
      fun ⟨_, hout, d, t, out', hlen, heq, hout', h⟩ => ?_⟩
    · cases d with
      | nil => cases hlen
      | cons c d =>
        injection heq with hbc ht
        refine ⟨d ++ out', by rw [hout, hbc]; rfl, d, t, out', ?_, ht, rfl, h⟩
        simpa using hlen
    · exact ⟨b :: d, t, out', by simpa using hlen, by rw [heq]; rfl, by rw [hout, hout']; rfl, h⟩

/-- A size line, taken apart. -/
theorem inBody_iff_lang {out s : Bytes} :
    InBody rest out s ↔ Lang rest (.size false 0) s out := by
  refine (inBody_iff rest).trans ?_
  refine ⟨fun ⟨line, value, t, hline, hs, h⟩ => ?_, fun ⟨digits, t, hdigits, hstarted, hle, hs,
    blanks, t1, hblanks, ht, h⟩ => ?_⟩
  · obtain ⟨digits, blanks, ext, hl, ⟨hne, hdigits, hvalue⟩, hblanks, hext⟩ := hline.parts
    refine ⟨digits, blanks ++ (ext ++ (crlf ++ t)), hdigits, Or.inr hne,
      fun _ => hvalue ▸ hline.le, ?_, blanks, _, hblanks, rfl, ?_⟩
    · rw [hs, hl]
      simp only [List.append_assoc]
    · rw [hvalue]
      rcases hext with rfl | ⟨es, rfl, hes⟩
      · exact Or.inl (crlf_iff.mpr ⟨t, rfl, h⟩)
      · exact Or.inr ⟨_, rfl, es, _, hes, rfl, crlf_iff.mpr ⟨t, rfl, h⟩⟩
  · have hne : digits ≠ [] := hstarted.resolve_left (by simp)
    rcases h with h | ⟨t2, ht1, es, t3, hes, ht2, h⟩
    · obtain ⟨t2, ht1, h⟩ := crlf_iff.mp h
      refine ⟨digits ++ (blanks ++ []), _, t2, ⟨⟨digits, blanks, [], rfl, ⟨hne, hdigits, rfl⟩,
        hblanks, Or.inl rfl⟩, hle hne⟩, ?_, h⟩
      rw [hs, ht, ht1]
      simp only [List.append_assoc, List.nil_append]
    · obtain ⟨t4, ht3, h⟩ := crlf_iff.mp h
      refine ⟨digits ++ (blanks ++ SEMICOLON :: es), _, t4, ⟨⟨digits, blanks, _, rfl,
        ⟨hne, hdigits, rfl⟩, hblanks, Or.inr ⟨es, rfl, hes⟩⟩, hle hne⟩, ?_, h⟩
      rw [hs, ht, ht1, ht2, ht3]
      simp only [List.append_assoc, List.cons_append]

/-- **The language of a phase satisfies the machine's equation.** -/
theorem lang_cons (p : Phase) (b : UInt8) (s out : Bytes) :
    Lang rest p (b :: s) out ↔ Goes rest s out (p.next true b) := by
  cases p with
  | size started value => exact lang_size_cons rest
  | sizeEnd value => exact behindDigits_cons rest
  | ext value => exact inExt_cons rest
  | headerLf value =>
    refine Iff.trans ?_ (goes_wants rest).symm
    rw [goes_afterSizeLine]
    exact byte_cons
  | data more => exact lang_data_cons rest
  | dataCr =>
    refine Iff.trans ?_ (goes_wants rest).symm
    rw [goes_go]
    exact byte_cons
  | dataLf =>
    refine Iff.trans ?_ (goes_wants rest).symm
    rw [goes_go]
    exact byte_cons.trans (and_congr_right fun _ => inBody_iff_lang rest)
  | trailerHead => exact inTrailers_cons rest
  | trailerName => exact inName_cons rest
  | trailerValue => exact inValue_cons rest
  | trailerLf =>
    refine Iff.trans ?_ (goes_wants rest).symm
    rw [goes_go]
    exact (and_congr_right fun _ => byte_cons).trans and_left_comm
  | endLf =>
    refine Iff.trans ?_ (goes_wants rest).symm
    refine (and_congr_right fun _ => byte_cons).trans (and_left_comm.trans ?_)
    exact and_congr_right fun _ => and_comm.trans (and_iff_right rfl).symm

theorem lang_nil (p : Phase) (out : Bytes) : ¬ Lang rest p [] out := by
  have hcrlf : ∀ K, ¬ Crlf K [] := fun _ => byte_nil
  have htrailers : ¬ InTrailers rest [] := by
    rw [inTrailers_iff]
    exact fun h => h.elim (hcrlf _) fun ⟨_, _, heq, _⟩ => by cases heq
  have hbehind : ∀ value, ¬ BehindDigits rest value out [] := by
    intro value
    rw [BehindDigits, span_nil]
    exact fun h => h.elim (hcrlf _) byte_nil
  cases p with
  | size started value =>
    intro ⟨digits, t, _, _, _, heq, h⟩
    have ht : t = [] := (List.append_eq_nil_iff.mp heq.symm).2
    exact hbehind _ (ht ▸ h)
  | sizeEnd value => exact hbehind value
  | ext value => exact fun h => hcrlf _ (span_nil.mp h)
  | headerLf value => exact byte_nil
  | data more =>
    intro ⟨d, t, out', hlen, heq, _⟩
    have hd : d = [] := (List.append_eq_nil_iff.mp heq.symm).1
    rw [hd] at hlen
    cases hlen
  | dataCr => exact hcrlf _
  | dataLf => exact byte_nil
  | trailerHead => exact fun h => htrailers h.2
  | trailerName => exact fun h => byte_nil (span_nil.mp h.2)
  | trailerValue => exact fun h => hcrlf _ (span_nil.mp h.2)
  | trailerLf => exact fun h => byte_nil h.2
  | endLf => exact fun h => byte_nil h.2

/-- The machine halts well on its language. -/
theorem run_eq_closed_iff (p : Phase) (s out : Bytes) :
    (chunked true).run p s = .closed true rest out ↔ Lang rest p s out := by
  refine Machine.run_ofNext_eq_closed_iff (lang_nil rest) (fun p b s out => ?_) p s out
  rw [lang_cons]
  cases p.next true b <;> exact Iff.rfl

end Language

/-! ## What the decoder accepts -/

/-- The call completed the body: `data` decoded, `leftover` behind it. -/
structure Decoded.IsComplete (r : Decoded) (data leftover : Bytes) : Prop where
  ret : r.ret = leftover.length
  data : r.buf.take r.size = data
  leftover : slice r.buf r.size (r.size + r.decoder.pendingBytes) = leftover

/-- **The decoder completes exactly the bodies of its grammar.** -/
theorem decode_complete_iff {s data leftover : Bytes} :
    ((HTTPChunkedDecoder.fresh true).decode s).IsComplete data leftover ↔
      ChunkedText extByte valueByte s data leftover := by
  have hrun : ChunkedText extByte valueByte s data leftover ↔
      (chunked true).run (.size false 0) s = .closed true leftover data :=
    (inBody_iff_lang leftover).trans (run_eq_closed_iff leftover (.size false 0) s data).symm
  have hcall := decodeCore_spec (shows_fresh true) s
  rw [hrun]
  change CallEnds _ _ _ ((chunked true).run (.size false 0) s) at hcall
  have heq := HTTPChunkedDecoder.decode_eq (.fresh true) s
  cases ho : (chunked true).run (.size false 0) s with
  | waiting p tail out =>
    rw [ho] at hcall
    have hw : Waits _ s _ p out := hcall
    refine iff_of_false (fun h => ?_) (by simp)
    have hret := h.ret
    unfold HTTPChunkedDecoder.decode at hret
    dsimp only at hret
    split at hret
    · simp only at hret
      omega
    · rw [hw.ret] at hret
      omega
  | closed t rest out =>
    rw [ho] at hcall
    cases t with
    | false =>
      have hr : Refuses _ s _ := hcall
      rw [HTTPChunkedDecoder.decode_of_ret (by rw [hr.ret]; decide)]
      refine iff_of_false (fun h => ?_) (by simp)
      have hret := h.ret
      rw [hr.ret] at hret
      omega
    | true =>
      have hc : Completes _ s _ rest out := hcall
      have hret := hc.ret
      rw [HTTPChunkedDecoder.decode_of_ret (by omega)]
      refine ⟨fun h => ?_, fun h => ?_⟩
      · rw [← h.data, ← h.leftover, hc.decoded, hc.leftover]
      · injection h with _ hrest hout
        exact ⟨hrest ▸ hc.ret, hc.decoded.trans hout, hc.leftover.trans hrest⟩

/-! ## Bounds in every call -/

/-- The loop takes the byte it stands on as a size digit of value `v`. -/
structure TakesDigit (l : DecodeLoop) (v : Nat) : Prop where
  state : l.decoder.state = .inChunkSize
  ended : l.ended = false
  hex : decodeHex l.byte = some v
  sig : l.decoder.sigHexCount ≠ 16
  le : ¬ l.decoder.bytesLeftInChunk > intMax >>> (4 : Nat)

/-- The states of the loop a call from `l` goes through: turn by turn, and digit by digit in the
turn of a size. -/
inductive Visits (l : DecodeLoop) : DecodeLoop → Prop where
  | start : Visits l l
  | turn {l1 l2 : DecodeLoop} (h : Visits l l1) (ht : turn l1 = .again l2) : Visits l l2
  | digit {l1 : DecodeLoop} {v : Nat} (h : Visits l l1) (ht : TakesDigit l1 v) :
      Visits l (takeDigit l1 v)

/-- A digit the loop takes is one the machine takes. -/
theorem TakesDigit.shows {l : DecodeLoop} {v : Nat} {p : Phase} (h : TakesDigit l v)
    (hs : Shows l.decoder p) :
    ∃ started value, p = .size started value ∧ value < 2 ^ 59 ∧ v < 16 := by
  have hstate : p.state = .inChunkSize := hs.state ▸ h.state
  cases p with
  | size started value =>
    have hle := h.le
    have hval : l.decoder.bytesLeftInChunk = value := hs.left
    rw [hval, gt_shift_iff, not_not] at hle
    exact ⟨started, value, rfl, hle, decodeHex_lt _ _ h.hex⟩
  | _ => cases hstate

/-- **Every state a call goes through stands in a phase.** -/
theorem Visits.shows {l l' : DecodeLoop} {p : Phase} (h : Visits l l') (hl : l.Laid)
    (hs : Shows l.decoder p) : l'.Laid ∧ ∃ p', Shows l'.decoder p' := by
  induction h with
  | start => exact ⟨hl, p, hs⟩
  | turn h ht ih =>
    obtain ⟨hl1, p1, hs1⟩ := ih
    have hf := turn_follows hl1 hs1
    rw [ht] at hf
    cases hf with
    | again h' hm => exact ⟨h'.loop.laid, _, h'.shows⟩
  | digit h ht ih =>
    obtain ⟨hl1, p1, hs1⟩ := ih
    obtain ⟨started, value, rfl, hlt, hv⟩ := ht.shows hs1
    exact ⟨(to_takeDigit hl1 ht.ended _).laid, _, shows_takeDigit hs1 hlt hv⟩

/-- The bytes left in range, the offsets in order and in the buffer. -/
structure DecodeLoop.InBounds (l : DecodeLoop) : Prop where
  left : l.decoder.LeftInRange
  laid : l.dst ≤ l.src ∧ l.src ≤ l.buf.length

/-- Where a turn leaves the loop, however it ends. -/
def Turn.loop : Turn → DecodeLoop
  | .again l | .leave _ l | .refuse l => l

/-- However a turn ends, it ends in bounds. -/
theorem Follows.inBounds {l : DecodeLoop} {p : Phase} {t : Turn} (h : Follows l p t) :
    t.loop.InBounds := by
  cases h with
  | again h hm => exact ⟨h.shows.leftInRange, h.loop.laid⟩
  | wait h hend => exact ⟨h.shows.leftInRange, h.loop.laid⟩
  | done hto hleft hret hrun => exact ⟨hleft, hto.laid⟩
  | refuse hto hleft hrun => exact ⟨hleft, hto.laid⟩

/-- The size with the digit `v`, before it is kept in 64 bits. -/
def DecodeLoop.grown (l : DecodeLoop) (v : Nat) : Int := l.decoder.bytesLeftInChunk * 16 + v

/-- A digit never wraps. -/
theorem TakesDigit.wrapInt_grown {l : DecodeLoop} {v : Nat} {p : Phase} (h : TakesDigit l v)
    (hs : Shows l.decoder p) : wrapInt (l.grown v) = l.grown v := by
  obtain ⟨started, value, rfl, hlt, hv⟩ := h.shows hs
  have hval : l.decoder.bytesLeftInChunk = value := hs.left
  unfold DecodeLoop.grown
  rw [hval]
  refine wrapInt_of_le (by omega) ?_
  unfold intMax
  omega

/-- What a call leaves lies in the buffer. -/
theorem decode_bounds {d : HTTPChunkedDecoder} {p : Phase} (hs : Shows d p)
    (hpend : d.pendingBytes = 0) (buf : Bytes) :
    let r := d.decode buf
    r.decoder.LeftInRange ∧ r.size + r.decoder.pendingBytes ≤ buf.length := by
  have hcall := decodeCore_spec hs buf
  dsimp only
  rw [HTTPChunkedDecoder.decode_eq]
  dsimp only
  cases ho : (chunked d.consumeTrailer).run p buf with
  | waiting p' tail out =>
    rw [ho] at hcall
    have hw : Waits d buf _ p' out := hcall
    refine ⟨hw.shows.leftInRange, ?_⟩
    have hlen := congrArg List.length hw.decoded
    rw [List.length_take, hw.length, hw.size] at hlen
    rw [hw.pendingBytes, hw.size]
    omega
  | closed t rest out =>
    rw [ho] at hcall
    cases t with
    | false =>
      have hr : Refuses d buf _ := hcall
      rw [hr.pendingBytes, hpend]
      exact ⟨hr.left, hr.size⟩
    | true =>
      have hc : Completes d buf _ rest out := hcall
      refine ⟨hc.left, ?_⟩
      have h1 := congrArg List.length hc.decoded
      have h2 := congrArg List.length hc.leftover
      rw [List.length_take, hc.length, hc.size] at h1
      rw [length_slice, hc.length, ← hc.pendingBytes] at h2
      rw [hc.size] at h2 ⊢
      omega

/-- Any byte but CR and LF. -/
def notLineEnd (b : UInt8) : Bool := b != CR && b != LF

/-- An extension is not just any text without CR and LF: a control byte in it is refused. -/
theorem control_byte_in_extension_refused :
    ¬ ∀ s data leftover : Bytes, (HTTPChunkedDecoder.fresh true).guardFires s = false →
      (((HTTPChunkedDecoder.fresh true).decode s).IsComplete data leftover ↔
        ChunkedText notLineEnd notLineEnd s data leftover) := by
  intro h
  have hiff := h (ascii "0;" ++ [1] ++ ascii "\r\n\r\n") [] [] (by decide)
  have hcomplete := hiff.mpr ⟨[], ascii "0;" ++ [1], [], by simp,
    ⟨⟨ascii "0", [], ascii ";" ++ [1], rfl, by decide, by simp,
      Or.inr ⟨[1], rfl, by decide⟩⟩, by decide⟩, by simp, rfl, rfl⟩
  exact absurd hcomplete.ret (by decide)

/-- **The decoder accepts exactly its grammar.** A call on the whole completes with `data` decoded
and `leftover` behind it if and only if the text is chunks, the last chunk, trailer lines and an
empty line, then `leftover`; an extension and a trailer's value hold neither control bytes other
than HTAB nor DEL. In every call of every run, whatever arrives, the size neither overflows nor
goes negative, and the decoded and the pending bytes lie one behind the other in the buffer. -/
theorem chunked_accepts_grammar :
    (∀ s data leftover : Bytes,
      ((HTTPChunkedDecoder.fresh true).decode s).IsComplete data leftover ↔
        ChunkedText extByte valueByte s data leftover) ∧
    ∀ (consumeTrailer : Bool) (d : HTTPChunkedDecoder), Reached consumeTrailer d → ∀ buf : Bytes,
      (∀ l, Visits ⟨d, buf, 0, 0⟩ l → l.InBounds ∧ (turn l).loop.InBounds ∧
        ∀ v, TakesDigit l v → wrapInt (l.grown v) = l.grown v) ∧
      (d.decode buf).decoder.LeftInRange ∧
      (d.decode buf).size + (d.decode buf).decoder.pendingBytes ≤ buf.length := by
  refine ⟨fun s data leftover => decode_complete_iff, fun consumeTrailer d hd buf => ?_⟩
  obtain ⟨p, hs, -, hpend⟩ := hd.shows
  refine ⟨fun l hl => ?_, decode_bounds hs hpend buf⟩
  obtain ⟨hlaid, p', hs'⟩ := hl.shows ⟨le_rfl, Nat.zero_le _⟩ hs
  exact ⟨⟨hs'.leftInRange, hlaid⟩, (turn_follows hlaid hs').inBounds,
    fun v hv => hv.wrapInt_grown hs'⟩

/-- A chunk with an extension and a trailer; the first digit of a decoder that has read one. -/
theorem chunked_accepts_grammar_abc :
    ChunkedText extByte valueByte (ascii "3 ;x=1\r\nabc\r\n0\r\nT: v\r\n\r\nGET") (ascii "abc")
      (ascii "GET") ∧
    ((HTTPChunkedDecoder.fresh true).decode (ascii "a")).decoder.bytesLeftInChunk = 10 ∧
    (turn ⟨((HTTPChunkedDecoder.fresh true).decode (ascii "a")).decoder, ascii "b",
      0, 0⟩).loop.InBounds := by
  refine ⟨(chunked_accepts_grammar.1 _ _ _).mp ⟨by decide, by decide,
    by decide⟩, by decide, ?_⟩
  have h := chunked_accepts_grammar.2 true _ (.call (ascii "a") .fresh (by decide))
    (ascii "b")
  exact (h.1 _ .start).2.1

end MojoHttp
