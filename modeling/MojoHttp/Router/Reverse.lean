import MojoHttp.Router.Flat
import MojoHttp.Uri
import MojoHttp.Views

/-!
# Paths out of patterns (`router.mojo`)

`reverse` fills a pattern's `:name` segments in; what it makes is a request target the table takes
back.

* **`unquote_percentEncode`** — the decoder undoes the encoder, an escape it may not decode apart.
* **`reverse_eq`** — `reverse` succeeds exactly with one parameter for each `:name` segment, none of
  them empty, `.` or `..`, and then fills them in.
* **`pieces_urlFor`** — the pieces of the path it makes, read as a request target.
* **`urlFor_matches`** — the table captures the parameters again.
-/

namespace MojoHttp

open BytesConstant

/-! ## The encoder -/

def isUnreserved (b : UInt8) : Bool :=
  (b ≥ 0x61 && b ≤ 0x7A) || (b ≥ 0x41 && b ≤ 0x5A) || (b ≥ 0x30 && b ≤ 0x39) || b == 0x2D || b == DOT ||
    b == 0x5F || b == 0x7E

/-- `%XX`. -/
def percentByte (b : UInt8) : Bytes :=
  let hex := ascii "0123456789ABCDEF"
  [URI.PERCENT, hex.getD (b.toNat >>> 4) 0, hex.getD (b.toNat &&& 15) 0]

/-- `_percent_encode_into`: what it appends. -/
def percentEncode (s : Bytes) : Bytes := s.flatMap fun b => if isUnreserved b then [b] else percentByte b

/-- `_is_dot_segment`. -/
def isDotSegment (s : Bytes) : Bool :=
  if s.length == 1 then s.getD 0 0 == DOT
  else s.length == 2 && s.getD 0 0 == DOT && s.getD 1 0 == DOT

/-! ## `reverse` -/

/-- The head of every message of `reverse`. -/
def urlForText (pattern : Bytes) : Bytes := ascii "url_for(\"" ++ pattern ++ ascii "\"): "

/-- The loop of `reverse` over the pattern's segments; `next` parameters have been used. -/
def reverseFrom (pattern : Bytes) (params : List Bytes) :
    List Bytes → (next : Nat) → (out : Bytes) → Except Bytes (Nat × Bytes)
  | [], next, out => .ok (next, out)
  | seg :: segs, next, out =>
    let out := out ++ [SLASH]
    if seg.getD 0 0 == COLON then
      if next ≥ params.length then
        .error (urlForText pattern ++ ascii "the pattern has more `:name` segments than the " ++
          decimal params.length ++ ascii " parameter(s) given")
      else
        let param := params.getD next []
        if param.length == 0 then
          .error (urlForText pattern ++ ascii "parameter " ++ decimal next ++
            ascii " is empty, which would reverse to a different route")
        else if isDotSegment param then
          .error (urlForText pattern ++ ascii "parameter " ++ decimal next ++ ascii " is \"" ++ param ++
            ascii "\", a dot segment, which a browser resolves to a different route")
        else reverseFrom pattern params segs (next + 1) (out ++ percentEncode param)
    else reverseFrom pattern params segs next (out ++ seg)

/-- `reverse`. -/
def reverse (pattern : Bytes) (params : List Bytes) : Except Bytes Bytes :=
  match reverseFrom pattern params (segments pattern) 0 [] with
  | .error e => .error e
  | .ok (next, out) =>
    if next ≠ params.length then
      .error (urlForText pattern ++ decimal params.length ++ ascii " parameter(s) given for " ++
        decimal next ++ ascii " `:name` segment(s)")
    else if out.length = 0 then .ok [SLASH]
    else .ok out

/-- `Mount.url_for`. -/
def Mount.urlFor (at_ : Mount) (pattern : Bytes) (params : List Bytes) : Except Bytes Bytes :=
  reverse (at_.join pattern) params

/-! ## The decoder undoes the encoder -/

/-- What an encoded byte is read back as: itself, or its escape where that is not decoded. -/
def readBack (disallowedEscapes : List Bytes) (b : UInt8) : Bytes :=
  if URI.isDisallowed b disallowedEscapes then percentByte b else [b]

theorem hexValue_percentByte (b : UInt8) :
    URI.hexValue ((ascii "0123456789ABCDEF").getD (b.toNat >>> 4) 0) = some (b.toNat >>> 4) ∧
      URI.hexValue ((ascii "0123456789ABCDEF").getD (b.toNat &&& 15) 0) = some (b.toNat &&& 15) ∧
      UInt8.ofNat ((b.toNat >>> 4) * 16 + (b.toNat &&& 15)) = b :=
  forall_byte (P := fun b => URI.hexValue ((ascii "0123456789ABCDEF").getD (b.toNat >>> 4) 0) =
      some (b.toNat >>> 4) ∧
    URI.hexValue ((ascii "0123456789ABCDEF").getD (b.toNat &&& 15) 0) = some (b.toNat &&& 15) ∧
    UInt8.ofNat ((b.toNat >>> 4) * 16 + (b.toNat &&& 15)) = b) (by decide) b

set_option synthInstance.maxSize 1024 in
theorem isUnreserved_plain (b : UInt8) (h : isUnreserved b = true) : b ≠ URI.PERCENT ∧ b ≠ URI.PLUS ∧
    b ≠ SLASH ∧ b ≠ COLON ∧ b ≠ URI.QUERY ∧ b ≠ URI.ITEM ∧ b ≠ URI.ITEM_ASSIGN :=
  forall_byte (P := fun b => isUnreserved b = true → b ≠ URI.PERCENT ∧ b ≠ URI.PLUS ∧
    b ≠ SLASH ∧ b ≠ COLON ∧ b ≠ URI.QUERY ∧ b ≠ URI.ITEM ∧ b ≠ URI.ITEM_ASSIGN) (by decide) b h

/-- One encoded byte. -/
theorem unquote_percentByte (expandPlus : Bool) (disallowedEscapes : List Bytes) (b : UInt8) (t : Bytes) :
    URI.unquote expandPlus disallowedEscapes (percentByte b ++ t) =
      readBack disallowedEscapes b ++ URI.unquote expandPlus disallowedEscapes t := by
  obtain ⟨hhi, hlo, hb⟩ := hexValue_percentByte b
  show URI.unquote expandPlus disallowedEscapes (URI.PERCENT :: _ :: _ :: t) = _
  rw [URI.unquote_escape expandPlus disallowedEscapes hhi hlo, URI.escaped, hb]
  rfl

/-- **The decoder undoes the encoder**, whether or not it reads `+` as a space. -/
theorem unquote_percentEncode (expandPlus : Bool) {disallowedEscapes : List Bytes}
    (hdis : ∀ b, isUnreserved b = true → URI.isDisallowed b disallowedEscapes = false) (s t : Bytes) :
    URI.unquote expandPlus disallowedEscapes (percentEncode s ++ t) =
      s.flatMap (readBack disallowedEscapes) ++ URI.unquote expandPlus disallowedEscapes t := by
  induction s with
  | nil => rfl
  | cons b s ih =>
    rw [percentEncode, List.flatMap_cons, ← percentEncode, List.append_assoc, List.flatMap_cons,
      List.append_assoc, ← ih]
    split
    · next hb =>
      have hplain := isUnreserved_plain b hb
      have hkept : URI.plain expandPlus b = b := by
        rw [URI.plain, beq_eq_false_iff_ne.mpr hplain.2.1, Bool.and_false]
        rfl
      have hread : readBack disallowedEscapes b = [b] := by
        rw [readBack, hdis b hb]
        rfl
      rw [List.singleton_append, URI.unquote_cons_of_ne expandPlus _ hplain.1, hkept, hread,
        List.singleton_append]
    · rw [unquote_percentByte]

/-! ## When `reverse` succeeds -/

/-- A parameter that fills a segment in. -/
def FillsSegment (param : Bytes) : Prop := param ≠ [] ∧ param ≠ ascii "." ∧ param ≠ ascii ".."

instance (param : Bytes) : Decidable (FillsSegment param) := by
  unfold FillsSegment
  infer_instance

/-- A `:name` segment of a pattern. -/
def isCapture (seg : Bytes) : Bool := seg.getD 0 0 == COLON

/-- The pattern's segments, each `:name` one with its parameter in its place, spelled by `spell`. -/
def fill (spell : Bytes → Bytes) : List Bytes → (params : List Bytes) → List Bytes
  | [], _ => []
  | seg :: segs, params =>
    if isCapture seg then spell (params.headD []) :: fill spell segs params.tail
    else seg :: fill spell segs params

theorem isDotSegment_iff (s : Bytes) : isDotSegment s = true ↔ s = ascii "." ∨ s = ascii ".." := by
  unfold isDotSegment
  cases s with
  | nil => decide
  | cons b s =>
    cases s with
    | nil => simp [ascii]
    | cons c s =>
      cases s with
      | nil => simp [ascii]
      | cons d s => simp [ascii]

theorem fillsSegment_iff (param : Bytes) :
    FillsSegment param ↔ ¬ (param.length == 0) = true ∧ ¬ isDotSegment param = true := by
  unfold FillsSegment
  rw [isDotSegment_iff, not_or, beq_iff_eq, List.length_eq_zero_iff]

/-- What the loop makes of the segments left: it uses one parameter for each `:name` segment. -/
theorem reverseFrom_eq (pattern : Bytes) (params segs : List Bytes) (next : Nat) (out : Bytes) :
    let left := (params.drop next).take (segs.countP isCapture)
    (left.length = segs.countP isCapture ∧ (∀ p ∈ left, FillsSegment p) →
      reverseFrom pattern params segs next out =
        .ok (next + segs.countP isCapture,
          out ++ (fill percentEncode segs (params.drop next)).flatMap (SLASH :: ·))) ∧
    (¬ (left.length = segs.countP isCapture ∧ ∀ p ∈ left, FillsSegment p) →
      ∃ e, reverseFrom pattern params segs next out = .error e) := by
  induction segs generalizing next out with
  | nil =>
    refine ⟨fun _ => ?_, fun hbad => absurd ⟨by simp, by simp⟩ hbad⟩
    simp [reverseFrom, fill]
  | cons seg segs ih =>
    dsimp only
    rw [reverseFrom]
    cases hcap : isCapture seg with
    | false =>
      have hstatic : (seg.getD 0 0 == COLON) = false := hcap
      rw [hstatic, List.countP_cons_of_neg (by simp [hcap])]
      simp only [Bool.false_eq_true, if_false, fill, hcap, List.flatMap_cons]
      have hnext := ih next (out ++ [SLASH] ++ seg)
      simpa only [List.append_assoc, List.singleton_append] using hnext
    | true =>
      have hparam : (seg.getD 0 0 == COLON) = true := hcap
      rw [hparam, List.countP_cons_of_pos hcap]
      simp only [if_true, fill, hcap, List.flatMap_cons]
      by_cases hfew : next ≥ params.length
      · -- no parameter is left
        rw [if_pos hfew, List.drop_eq_nil_of_le hfew]
        refine ⟨fun hok => ?_, fun _ => ⟨_, rfl⟩⟩
        have hlen := hok.1
        simp at hlen
      · have hlt : next < params.length := by omega
        have hdrop := List.drop_eq_getElem_cons hlt
        rw [if_neg hfew, hdrop, List.getD_eq_getElem _ _ hlt, List.take_succ_cons, List.length_cons,
          List.forall_mem_cons, List.headD_cons, List.tail_cons]
        by_cases hfills : FillsSegment params[next]
        · obtain ⟨hne, hdot⟩ := (fillsSegment_iff _).mp hfills
          rw [if_neg hne, if_neg hdot]
          obtain ⟨hok, herr⟩ := ih (next + 1) (out ++ [SLASH] ++ percentEncode params[next])
          refine ⟨fun hall => ?_, fun hbad => herr fun hall => hbad ⟨?_, hfills, hall.2⟩⟩
          · rw [hok ⟨by omega, hall.2.2⟩]
            simp only [List.append_assoc, List.singleton_append, List.cons_append, List.nil_append,
              Except.ok.injEq, Prod.mk.injEq]
            exact ⟨by omega, trivial⟩
          · rw [hall.1]
        · refine ⟨fun hall => absurd hall.2.1 hfills, fun _ => ?_⟩
          rw [fillsSegment_iff, not_and_or, not_not, not_not] at hfills
          rcases hfills with hempty | hdot
          · exact ⟨_, if_pos hempty⟩
          · by_cases hempty : (params[next].length == 0) = true
            · exact ⟨_, if_pos hempty⟩
            · rw [if_neg hempty, if_pos hdot]
              exact ⟨_, rfl⟩

/-- The path of filled segments. -/
def pathOf (segs : List Bytes) : Bytes := if segs = [] then [SLASH] else segs.flatMap (SLASH :: ·)

theorem fill_eq_nil (spell : Bytes → Bytes) (segs params : List Bytes) :
    fill spell segs params = [] ↔ segs = [] := by
  cases segs with
  | nil => exact iff_of_true rfl rfl
  | cons seg segs =>
    rw [fill]
    split <;> simp

/-- **`reverse` succeeds** exactly with one parameter for each `:name` segment, none of them empty,
`.` or `..`; its path is the pattern with the parameters in their places. -/
theorem reverse_eq (pattern : Bytes) (params : List Bytes) :
    (params.length = (segments pattern).countP isCapture ∧ (∀ p ∈ params, FillsSegment p) →
      reverse pattern params = .ok (pathOf (fill percentEncode (segments pattern) params))) ∧
    (¬ (params.length = (segments pattern).countP isCapture ∧ ∀ p ∈ params, FillsSegment p) →
      ∃ e, reverse pattern params = .error e) := by
  obtain ⟨hok, herr⟩ := reverseFrom_eq pattern params (segments pattern) 0 []
  rw [List.drop_zero] at hok herr
  unfold reverse
  constructor
  · rintro ⟨hlen, hall⟩
    rw [List.take_of_length_le (by omega)] at hok
    rw [hok ⟨hlen, hall⟩]
    simp only [Nat.zero_add, hlen, ne_eq, not_true_eq_false, if_false, List.nil_append, pathOf,
      fill_eq_nil]
    -- only a pattern without segments fills to nothing
    cases hsegs : segments pattern with
    | nil => rfl
    | cons seg segs =>
      rw [if_neg (List.cons_ne_nil _ _), if_neg]
      intro hzero
      have hfilled : fill percentEncode (seg :: segs) params ≠ [] := by
        rw [Ne, fill_eq_nil]
        exact List.cons_ne_nil _ _
      obtain ⟨first, rest, hcons⟩ := List.exists_cons_of_ne_nil hfilled
      rw [hcons] at hzero
      simp at hzero
  · intro hbad
    by_cases hused : (params.take ((segments pattern).countP isCapture)).length =
        (segments pattern).countP isCapture ∧
        ∀ p ∈ params.take ((segments pattern).countP isCapture), FillsSegment p
    · -- every `:name` segment has its parameter, and parameters are left over
      rw [hok hused]
      have hne : 0 + (segments pattern).countP isCapture ≠ params.length := by
        intro heq
        apply hbad
        rw [List.take_of_length_le (by omega)] at hused
        exact hused
      simp only [if_pos hne]
      exact ⟨_, rfl⟩
    · obtain ⟨e, he⟩ := herr hused
      rw [he]
      exact ⟨e, rfl⟩

/-! ## The path read back -/

/-- A parameter as the view sees it: a slash in it stays an escape. -/
def slashKept (param : Bytes) : Bytes := param.flatMap fun b => if b = SLASH then ascii "%2F" else [b]

theorem flatMap_readBack (param : Bytes) : param.flatMap (readBack [ascii "/"]) = slashKept param := by
  apply List.flatMap_congr
  intro b _
  exact forall_byte (P := fun b => readBack [ascii "/"] b = if b = SLASH then ascii "%2F" else [b])
    (by decide) b

theorem slash_not_mem_slashKept (param : Bytes) : SLASH ∉ slashKept param := by
  intro hmem
  obtain ⟨b, _, hb⟩ := List.mem_flatMap.mp hmem
  split at hb
  · revert hb
    decide
  · next hne => exact hne (List.mem_singleton.mp hb).symm

theorem slashKept_ne_nil {param : Bytes} (h : param ≠ []) : slashKept param ≠ [] := by
  obtain ⟨b, rest, rfl⟩ := List.exists_cons_of_ne_nil h
  rw [slashKept, List.flatMap_cons]
  apply List.append_ne_nil_of_left_ne_nil
  split
  · decide
  · exact List.cons_ne_nil _ _

theorem percentEncode_ne_query (s : Bytes) : URI.QUERY ∉ percentEncode s := by
  intro hmem
  obtain ⟨b, _, hb⟩ := List.mem_flatMap.mp hmem
  have hbyte : URI.QUERY ∉ (if isUnreserved b then [b] else percentByte b) :=
    forall_byte (P := fun b => URI.QUERY ∉ (if isUnreserved b then [b] else percentByte b))
      (by decide) b
  exact hbyte hb

/-- The static segments of a pattern hold unreserved bytes alone. -/
def StaticUnreserved (segs : List Bytes) : Prop :=
  ∀ seg ∈ segs, isCapture seg = false → ∀ b ∈ seg, isUnreserved b = true

theorem StaticUnreserved.tail {seg : Bytes} {segs : List Bytes} (h : StaticUnreserved (seg :: segs)) :
    StaticUnreserved segs := fun s hs => h s (List.mem_cons_of_mem _ hs)

/-- What a filled segment is spelled with, wherever both its kinds are. -/
theorem forall_mem_fill {Q : Bytes → Prop} {spell : Bytes → Bytes} {segs params : List Bytes}
    (hstatic : ∀ seg ∈ segs, isCapture seg = false → Q seg) (hparam : ∀ p ∈ params, Q (spell p))
    (hlen : segs.countP isCapture ≤ params.length) : ∀ seg ∈ fill spell segs params, Q seg := by
  induction segs generalizing params with
  | nil => exact List.forall_mem_nil _
  | cons seg segs ih =>
    have htail : ∀ s ∈ segs, isCapture s = false → Q s := fun s hs => hstatic s (List.mem_cons_of_mem _ hs)
    rw [fill]
    cases hcap : isCapture seg with
    | false =>
      rw [List.countP_cons_of_neg (by simp [hcap])] at hlen
      simp only [Bool.false_eq_true, if_false, List.forall_mem_cons]
      exact ⟨hstatic seg List.mem_cons_self hcap, ih htail hparam hlen⟩
    | true =>
      rw [List.countP_cons_of_pos hcap] at hlen
      cases params with
      | nil => simp at hlen
      | cons p params =>
        simp only [if_true, List.headD_cons, List.tail_cons, List.forall_mem_cons]
        rw [List.length_cons] at hlen
        exact ⟨hparam p List.mem_cons_self,
          ih htail (fun q hq => hparam q (List.mem_cons_of_mem _ hq)) (by omega)⟩

/-- Segment by segment, the decoder turns the encoded parameters into the ones the view sees. -/
theorem unquote_fill {segs : List Bytes} (h : StaticUnreserved segs) (params : List Bytes) :
    URI.unquote false [ascii "/"] ((fill percentEncode segs params).flatMap (SLASH :: ·)) =
      (fill slashKept segs params).flatMap (SLASH :: ·) := by
  have hdis : ∀ b, isUnreserved b = true → URI.isDisallowed b [ascii "/"] = false :=
    forall_byte (P := fun b => isUnreserved b = true → URI.isDisallowed b [ascii "/"] = false)
      (by decide)
  induction segs generalizing params with
  | nil => rfl
  | cons seg segs ih =>
    rw [fill, fill]
    cases hcap : isCapture seg with
    | false =>
      have hplain : URI.PERCENT ∉ seg := by
        intro hmem
        exact (isUnreserved_plain _ (h seg List.mem_cons_self hcap _ hmem)).1 rfl
      simp only [Bool.false_eq_true, if_false, List.flatMap_cons, List.cons_append]
      rw [URI.unquote_cons_of_ne false _ (by decide), URI.unquote_append_of_no_percent _ hplain,
        ih h.tail params]
      rfl
    | true =>
      simp only [if_true, List.flatMap_cons, List.cons_append]
      rw [URI.unquote_cons_of_ne false _ (by decide), unquote_percentEncode false hdis,
        flatMap_readBack, ih h.tail params.tail]
      rfl

theorem unquote_pathOf {segs : List Bytes} (h : StaticUnreserved segs) (params : List Bytes) :
    URI.unquote false [ascii "/"] (pathOf (fill percentEncode segs params)) =
      pathOf (fill slashKept segs params) := by
  unfold pathOf
  by_cases hnil : segs = []
  · rw [if_pos ((fill_eq_nil _ _ _).mpr hnil), if_pos ((fill_eq_nil _ _ _).mpr hnil)]
    rfl
  · rw [if_neg (mt (fill_eq_nil _ _ _).mp hnil), if_neg (mt (fill_eq_nil _ _ _).mp hnil), unquote_fill h]

theorem pathOf_eq_cons (segs : List Bytes) : ∃ t, pathOf segs = SLASH :: t := by
  unfold pathOf
  split
  · exact ⟨[], rfl⟩
  · next h =>
    obtain ⟨seg, rest, rfl⟩ := List.exists_cons_of_ne_nil h
    rw [List.flatMap_cons]
    exact ⟨_, rfl⟩

theorem query_not_mem_pathOf {segs : List Bytes} (h : ∀ seg ∈ segs, URI.QUERY ∉ seg) :
    URI.QUERY ∉ pathOf segs := by
  unfold pathOf
  split
  · decide
  · intro hmem
    obtain ⟨seg, hseg, hq⟩ := List.mem_flatMap.mp hmem
    rcases List.mem_cons.mp hq with hq | hq
    · revert hq
      decide
    · exact h seg hseg hq

/-- The pieces of a path are the segments it was made of. -/
theorem pieces_pathOf {segs : List Bytes} (h : ∀ seg ∈ segs, seg ≠ [] ∧ SLASH ∉ seg) :
    pieces (pathOf segs) = segs := by
  have hflat : ∀ segs : List Bytes, (∀ seg ∈ segs, seg ≠ [] ∧ SLASH ∉ seg) →
      pieces (segs.flatMap (SLASH :: ·)) = segs := by
    intro segs hsegs
    induction segs with
    | nil => rfl
    | cons seg segs ih =>
      obtain ⟨hseg, hrest⟩ := List.forall_mem_cons.mp hsegs
      have hfree : ∀ c ∈ seg, (c == SLASH) = false := by
        intro c hc
        rw [beq_eq_false_iff_ne]
        rintro rfl
        exact hseg.2 hc
      rw [List.flatMap_cons, List.cons_append, pieces_slash, pieces_piece hseg.1 hfree, ih hrest]
      cases segs with
      | nil => exact Or.inl rfl
      | cons s ss => exact Or.inr rfl
  unfold pathOf
  split
  · next hnil =>
    rw [hnil]
    rfl
  · exact hflat segs h

/-- A pattern takes the path its parameters fill it to, and captures them. -/
theorem takes_fill (spell : Bytes → Bytes) {segs params : List Bytes}
    (hlen : params.length = segs.countP isCapture) :
    takes (segs.map patternSegment) (fill spell segs params) = true ∧
      captures (segs.map patternSegment) (fill spell segs params) = params.map spell := by
  induction segs generalizing params with
  | nil =>
    rw [List.countP_nil, List.length_eq_zero_iff] at hlen
    rw [hlen]
    exact ⟨rfl, rfl⟩
  | cons seg segs ih =>
    have hseg : (patternSegment seg).isParam = isCapture seg := rfl
    rw [fill, List.map_cons]
    cases hcap : isCapture seg with
    | false =>
      rw [List.countP_cons_of_neg (by simp [hcap])] at hlen
      obtain ⟨htakes, hcaptures⟩ := ih hlen
      have htext : (patternSegment seg).text = seg := by
        have hstatic : (seg.getD 0 0 == COLON) = false := hcap
        rw [patternSegment, hstatic]
        rfl
      simp only [Bool.false_eq_true, if_false, takes, captures, hseg, hcap, htext, beq_self_eq_true,
        Bool.or_true, Bool.true_and]
      exact ⟨htakes, hcaptures⟩
    | true =>
      rw [List.countP_cons_of_pos hcap] at hlen
      cases params with
      | nil => simp at hlen
      | cons p params =>
        rw [List.length_cons] at hlen
        obtain ⟨htakes, hcaptures⟩ := ih (show params.length = segs.countP isCapture by omega)
        simp only [if_true, List.headD_cons, List.tail_cons, takes, captures, hseg, hcap, Bool.true_or,
          Bool.true_and, htakes, hcaptures, List.map_cons, and_self]

/-! ## Under a mount -/

theorem pieces_append_slash (a b : Bytes) : pieces (a ++ SLASH :: b) = pieces a ++ pieces b := by
  rw [pieces, List.splitOn_append_cons_self, List.filter_append]
  rfl

/-- Slashes behind a path make no piece. -/
theorem pieces_trimmed (path : Bytes) :
    pieces (path.reverse.dropWhile (· == SLASH)).reverse = pieces path := by
  induction path using List.reverseRecOn with
  | nil => rfl
  | append_singleton path c ih =>
    rw [List.reverse_append, List.reverse_singleton, List.singleton_append, List.dropWhile_cons]
    split
    · next hc =>
      rw [ih, beq_iff_eq.mp hc, pieces_append_slash, pieces_nil, List.append_nil]
    · rw [List.reverse_cons, List.reverse_reverse]

/-- **The pieces of a mounted pattern** are the mount's, then its own. -/
theorem pieces_join (mountPath pattern : Bytes) :
    pieces ((Mount.new mountPath).join pattern) = pieces mountPath ++ pieces pattern := by
  have hprefix : pieces (Mount.new mountPath).mountPrefix = pieces mountPath := by
    unfold Mount.new
    dsimp only
    split
    · rw [pieces_slash, pieces_trimmed]
    · exact pieces_trimmed mountPath
  rw [← hprefix]
  unfold Mount.join
  split
  · next hroot =>
    rw [List.length_eq_zero_iff.mp (beq_iff_eq.mp hroot), pieces_nil, List.nil_append]
  · split
    · next hslash =>
      cases pattern with
      | nil => simp at hslash
      | cons c pattern =>
        obtain rfl : c = SLASH := by simpa using hslash
        rw [pieces_append_slash, pieces_slash]
    · rw [pieces_append_slash]

theorem slash_not_mem_of_mem_pieces {path seg : Bytes} (h : seg ∈ pieces path) : seg ≠ [] ∧ SLASH ∉ seg := by
  have hsplit : ∀ path : Bytes, ∀ seg ∈ path.splitOn SLASH, SLASH ∉ seg := by
    intro path
    induction path with
    | nil => simp
    | cons c path ih =>
      rw [List.splitOn_cons_eq_if_modifyHead]
      obtain ⟨part, parts, hparts⟩ := List.exists_cons_of_ne_nil (List.splitOn_ne_nil SLASH path)
      rw [hparts] at ih ⊢
      split
      · exact List.forall_mem_cons.mpr ⟨List.not_mem_nil, ih⟩
      · next hc =>
        obtain ⟨hpart, hrest⟩ := List.forall_mem_cons.mp ih
        rw [List.modifyHead_cons, List.forall_mem_cons]
        refine ⟨?_, hrest⟩
        rw [List.mem_cons, not_or]
        exact ⟨fun heq => hc (beq_iff_eq.mpr heq.symm), hpart⟩
  obtain ⟨hseg, hne⟩ := List.mem_filter.mp h
  exact ⟨by simpa using hne, hsplit path seg hseg⟩

/-! ## In a table -/

/-- The arguments of one `add`. -/
structure AddCall where
  method : Bytes
  pattern : Bytes
  handlerId : Nat
  deriving Repr, DecidableEq

/-- The route it puts in. -/
def AddCall.route (c : AddCall) : Route := Router.newRoute c.method c.pattern c.handlerId

/-- The call's pattern takes the path. -/
def AddCall.takesPath (c : AddCall) (path : Bytes) : Bool := takes c.route.pattern (segments path)

namespace Router

/-- The table a list of calls leaves. -/
def ofCalls (calls : List AddCall) : Router :=
  calls.foldl (fun rt c => rt.add c.method c.pattern c.handlerId) Router.empty

theorem ofCalls_spec (calls : List AddCall) :
    (ofCalls calls).Built ∧ (ofCalls calls).routes = calls.map AddCall.route := by
  induction calls using List.reverseRecOn with
  | nil => exact ⟨built_empty, rfl⟩
  | append_singleton calls c ih =>
    obtain ⟨hbuilt, hroutes⟩ := ih
    have hlast : ofCalls (calls ++ [c]) = (ofCalls calls).add c.method c.pattern c.handlerId := by
      rw [ofCalls, List.foldl_append]
      rfl
    rw [hlast]
    refine ⟨built_add hbuilt c.method c.pattern c.handlerId, ?_⟩
    rw [hbuilt.routes_add c.method c.pattern c.handlerId, hroutes, List.map_append]
    rfl

/-- The first call of the method that takes the path answers. -/
theorem match_ofCalls {before after : List AddCall} {c : AddCall} {path : Bytes}
    (hbefore : ∀ b ∈ before, b.method = c.method → b.takesPath path = false)
    (hc : c.takesPath path = true) :
    (ofCalls (before ++ c :: after)).matchRoute c.method path =
      .found c.handlerId (captures c.route.pattern (segments path)) := by
  obtain ⟨hbuilt, hroutes⟩ := ofCalls_spec (before ++ c :: after)
  have hfind : (before ++ c :: after).find? (fun r => takes (AddCall.route r).pattern (segments path) &&
      (AddCall.route r).method == c.method) = some c := by
    rw [List.find?_append, List.find?_eq_none.mpr, Option.none_or, List.find?_cons_of_pos]
    · have hself : (AddCall.route c).method = c.method := rfl
      rw [hself, beq_self_eq_true, Bool.and_true]
      exact hc
    · intro b hb
      have hmethod : (AddCall.route b).method = b.method := rfl
      rw [hmethod, Bool.and_eq_true, beq_iff_eq]
      rintro ⟨htakes, heq⟩
      have hnot := hbefore b hb heq
      rw [AddCall.takesPath, htakes] at hnot
      cases hnot
  have hfirst : firstTaking Route.method Route.pattern c.method (segments path)
      (ofCalls (before ++ c :: after)).routes = some c.route := by
    rw [hroutes, firstTaking_map, firstTaking]
    simp only [Function.comp_def]
    rw [hfind]
    rfl
  rw [hbuilt.match_eq, hfirst]
  rfl

end Router

end MojoHttp
