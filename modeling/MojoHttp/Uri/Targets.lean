import MojoHttp.Uri

/-!
# What a target is read as

Decoding a path keeps its segments, and the two ways to a request's URI agree.

* **`Pieces`** — the escapes of a text and its other bytes; every text has one such reading.
* **`unquote_segments`** — decoding a path and splitting it commute.
* **`targets_agree`** — a target that starts with `/` is a path and a query, whatever they hold.
-/

namespace MojoHttp.URI

open BytesConstant

/-! ## Escapes -/

/-- An escape of two hex digits stands at the front. -/
def StartsEscape (t : Bytes) : Prop :=
  ∃ d e rest, t = PERCENT :: d :: e :: rest ∧ (hexValue d).isSome ∧ (hexValue e).isSome

inductive Piece where
  | escape (d e : UInt8)
  | byte (c : UInt8)
  deriving Repr, DecidableEq

namespace Piece

def spell : Piece → Bytes
  | escape d e => [PERCENT, d, e]
  | byte c => [c]

/-- What a piece of a path is read as: an encoded `/` stays an escape. -/
def decoded : Piece → Bytes
  | escape d e =>
    let v := UInt8.ofNat (16 * (hexValue d).getD 0 + (hexValue e).getD 0)
    if v = SLASH then ascii "%2F" else [v]
  | byte c => [c]

end Piece

/-- The reading of a text: an escape wherever one stands, and every other byte by itself. -/
inductive Pieces : Bytes → List Piece → Prop where
  | nil : Pieces [] []
  | escape {d e : UInt8} {rest : Bytes} {pieces : List Piece} (hd : (hexValue d).isSome)
      (he : (hexValue e).isSome) (hrest : Pieces rest pieces) :
      Pieces (PERCENT :: d :: e :: rest) (.escape d e :: pieces)
  | byte {c : UInt8} {rest : Bytes} {pieces : List Piece} (hc : ¬StartsEscape (c :: rest))
      (hrest : Pieces rest pieces) : Pieces (c :: rest) (.byte c :: pieces)

theorem Pieces.spelled {p : Bytes} {pieces : List Piece} (h : Pieces p pieces) :
    pieces.flatMap Piece.spell = p := by
  induction h with
  | nil => rfl
  | escape _ _ _ ih =>
    rw [List.flatMap_cons, ih]
    rfl
  | byte _ _ ih =>
    rw [List.flatMap_cons, ih]
    rfl

theorem Pieces.unique {p : Bytes} {pieces pieces' : List Piece} (h : Pieces p pieces)
    (h' : Pieces p pieces') : pieces = pieces' := by
  induction h generalizing pieces' with
  | nil =>
    cases h'
    rfl
  | escape hd he _ ih =>
    cases h' with
    | escape _ _ hrest' => rw [ih hrest']
    | byte hc _ => exact absurd ⟨_, _, _, rfl, hd, he⟩ hc
  | byte hc _ ih =>
    cases h' with
    | escape hd he _ => exact absurd ⟨_, _, _, rfl, hd, he⟩ hc
    | byte _ hrest' => rw [ih hrest']

theorem exists_pieces (p : Bytes) : ∃ pieces, Pieces p pieces := by
  -- an escape takes three bytes at once: the length of what is left carries the induction
  induction hn : p.length using Nat.strongRecOn generalizing p with
  | ind n ih =>
    cases p with
    | nil => exact ⟨[], .nil⟩
    | cons c rest =>
      by_cases hescape : StartsEscape (c :: rest)
      · obtain ⟨d, e, behind, heq, hd, he⟩ := hescape
        rw [heq] at hn ⊢
        obtain ⟨pieces, hpieces⟩ := ih behind.length (by simp at hn; omega) behind rfl
        exact ⟨_, hpieces.escape hd he⟩
      · obtain ⟨pieces, hpieces⟩ := ih rest.length (by simp at hn; omega) rest rfl
        exact ⟨_, hpieces.byte hescape⟩

theorem unquote_byte (disallowedEscapes : List Bytes) {c : UInt8} {rest : Bytes}
    (h : ¬StartsEscape (c :: rest)) :
    unquote false disallowedEscapes (c :: rest) = c :: unquote false disallowedEscapes rest := by
  match rest with
  | [] => rfl
  | [_] => rfl
  | d :: e :: behind =>
    by_cases hc : c = PERCENT
    · subst hc
      cases hd : hexValue d with
      | none =>
        rw [unquote, hd]
        rfl
      | some hi =>
        cases he : hexValue e with
        | none =>
          rw [unquote, hd, he]
          rfl
        | some lo => exact absurd ⟨d, e, behind, rfl, by rw [hd]; rfl, by rw [he]; rfl⟩ h
    · exact unquote_cons_of_ne false disallowedEscapes hc _

theorem hexValue_lt {c : UInt8} {v : Nat} (h : hexValue c = some v) : v < 16 := by
  unfold hexValue at h
  simp only [ge_iff_le, UInt8.le_iff_toNat_le] at h
  split at h
  · next hdigit =>
    obtain rfl := Option.some.inj h
    simp at hdigit
    omega
  · split at h
    · next hlower =>
      obtain rfl := Option.some.inj h
      simp at hlower
      omega
    · split at h
      · next hupper =>
        obtain rfl := Option.some.inj h
        simp at hupper
        omega
      · cases h

/-- An escape of a path is its byte; the one of `/` is written again with upper case digits. -/
theorem escaped_eq_decoded {d e : UInt8} {hi lo : Nat} (hd : hexValue d = some hi)
    (he : hexValue e = some lo) : escaped [ascii "/"] hi lo = (Piece.escape d e).decoded := by
  have hvalue : UInt8.ofNat (16 * (hexValue d).getD 0 + (hexValue e).getD 0) =
      UInt8.ofNat (hi * 16 + lo) := by
    rw [hd, he, Option.getD_some, Option.getD_some, Nat.mul_comm]
  have hslash : ∀ v, isDisallowed v [ascii "/"] = decide (v = SLASH) := by
    intro v
    simp [isDisallowed, ascii, BEq.beq, eq_comm]
  unfold Piece.decoded escaped
  simp only [hvalue, hslash, decide_eq_true_eq]
  split
  · next hv =>
    -- both digits fit four bits: the byte says which they are
    have hhi := hexValue_lt hd
    have hlo := hexValue_lt he
    have hnat := congrArg UInt8.toNat hv
    rw [UInt8.toNat_ofNat', Nat.mod_eq_of_lt (by omega)] at hnat
    have hhi' : hi = 2 := by
      change hi * 16 + lo = 47 at hnat
      omega
    have hlo' : lo = 15 := by
      change hi * 16 + lo = 47 at hnat
      omega
    rw [hhi', hlo']
    decide
  · rfl

/-- **Each escape is decoded once**, every other byte is kept, and nothing is moved. -/
theorem Pieces.unquote_eq {p : Bytes} {pieces : List Piece} (h : Pieces p pieces) :
    unquote false [ascii "/"] p = pieces.flatMap Piece.decoded := by
  induction h with
  | nil => rfl
  | escape hd he _ ih =>
    obtain ⟨hi, hd⟩ := Option.isSome_iff_exists.mp hd
    obtain ⟨lo, he⟩ := Option.isSome_iff_exists.mp he
    rw [unquote_escape false _ hd he, List.flatMap_cons, escaped_eq_decoded hd he, ih]
  | byte hc _ ih =>
    rw [unquote_byte _ hc, List.flatMap_cons, ih]
    rfl

/-! ## Segments -/

theorem hexValue_slash : hexValue SLASH = none := by decide

/-- No escape reaches over a `/`. -/
theorem startsEscape_append_slash {c : UInt8} {s t : Bytes} (hs : SLASH ∉ c :: s)
    (h : StartsEscape (c :: s ++ SLASH :: t)) : StartsEscape (c :: s) := by
  obtain ⟨d, e, rest, heq, hd, he⟩ := h
  have hslash : (hexValue SLASH).isSome → False := by
    rw [hexValue_slash]
    exact Bool.false_ne_true
  match s with
  | [] =>
    simp only [List.cons_append, List.nil_append, List.cons.injEq] at heq
    obtain ⟨-, rfl, -⟩ := heq
    exact (hslash hd).elim
  | [_] =>
    simp only [List.cons_append, List.nil_append, List.cons.injEq] at heq
    obtain ⟨-, -, rfl, -⟩ := heq
    exact (hslash he).elim
  | d' :: e' :: s' =>
    simp only [List.cons_append, List.cons.injEq] at heq
    obtain ⟨rfl, rfl, rfl, -⟩ := heq
    exact ⟨_, _, _, rfl, hd, he⟩

theorem Pieces.append_slash {s t : Bytes} {pieces pieces' : List Piece} (hs : SLASH ∉ s)
    (h : Pieces s pieces) (h' : Pieces t pieces') :
    Pieces (s ++ SLASH :: t) (pieces ++ Piece.byte SLASH :: pieces') := by
  induction h with
  | nil =>
    refine Pieces.byte ?_ h'
    rintro ⟨d, e, rest, heq, -, -⟩
    exact absurd (List.cons.inj heq).1 (by decide)
  | escape hd he _ ih => exact (ih fun hmem => hs (by simp [hmem])).escape hd he
  | byte hc _ ih =>
    refine Pieces.byte (fun hescape => hc (startsEscape_append_slash hs hescape)) (ih ?_)
    exact fun hmem => hs (List.mem_cons_of_mem _ hmem)

theorem unquote_slash {s : Bytes} (hs : SLASH ∉ s) (t : Bytes) :
    unquote false [ascii "/"] (s ++ SLASH :: t) =
      unquote false [ascii "/"] s ++ SLASH :: unquote false [ascii "/"] t := by
  obtain ⟨pieces, hpieces⟩ := exists_pieces s
  obtain ⟨pieces', hpieces'⟩ := exists_pieces t
  rw [(hpieces.append_slash hs hpieces').unquote_eq, hpieces.unquote_eq, hpieces'.unquote_eq,
    List.flatMap_append, List.flatMap_cons]
  rfl

/-- No segment gets a `/` by decoding. -/
theorem slash_not_mem_unquote {s : Bytes} (hs : SLASH ∉ s) :
    SLASH ∉ unquote false [ascii "/"] s := by
  obtain ⟨pieces, hpieces⟩ := exists_pieces s
  rw [hpieces.unquote_eq, List.mem_flatMap]
  rintro ⟨piece, hpiece, hmem⟩
  cases piece with
  | escape d e =>
    simp only [Piece.decoded] at hmem
    split at hmem
    · exact absurd hmem (by decide)
    · next hv => exact hv (List.mem_singleton.mp hmem).symm
  | byte c =>
    refine hs ?_
    rw [← hpieces.spelled, List.mem_flatMap]
    exact ⟨_, hpiece, hmem⟩

theorem splitOn_slash {s : Bytes} (h : SLASH ∉ s) (rest : Bytes) :
    (s ++ SLASH :: rest).splitOn SLASH = s :: rest.splitOn SLASH := by
  rw [List.splitOn_eq_splitOnP, List.splitOnP_append_cons (p := (· == SLASH)) _ _ (beq_self_eq_true _),
    ← List.splitOn_eq_splitOnP, ← List.splitOn_eq_splitOnP, List.splitOn_eq_singleton h]
  rfl

theorem splitOn_unquote (p : Bytes) :
    (unquote false [ascii "/"] p).splitOn SLASH =
      (p.splitOn SLASH).map (unquote false [ascii "/"]) := by
  induction hn : p.length using Nat.strongRecOn generalizing p with
  | ind n ih =>
    by_cases hmem : SLASH ∈ p
    · obtain ⟨s, t, rfl, hs⟩ := List.eq_append_cons_of_mem hmem
      rw [unquote_slash hs, splitOn_slash (slash_not_mem_unquote hs), splitOn_slash hs, List.map_cons,
        ih t.length (by simp at hn; omega) t rfl]
    · rw [List.splitOn_eq_singleton hmem, List.splitOn_eq_singleton (slash_not_mem_unquote hmem)]
      rfl

/-- **Decoding keeps the segments**: it commutes with the split at `/`; and of the one reading of a
text in escapes and other bytes it decodes each escape once and keeps each other byte. -/
theorem unquote_segments (p : Bytes) :
    (unquote false [ascii "/"] p).splitOn SLASH =
        (p.splitOn SLASH).map (unquote false [ascii "/"]) ∧
      ∃! pieces, Pieces p pieces ∧ pieces.flatMap Piece.spell = p ∧
        unquote false [ascii "/"] p = pieces.flatMap Piece.decoded := by
  refine ⟨splitOn_unquote p, ?_⟩
  obtain ⟨pieces, hpieces⟩ := exists_pieces p
  refine ⟨pieces, ⟨hpieces, hpieces.spelled, hpieces.unquote_eq⟩, ?_⟩
  rintro pieces' ⟨hpieces', -, -⟩
  exact hpieces'.unique hpieces

/-! ## A path and a query -/

theorem takeWhile_query (p q : Bytes) :
    (p ++ QUERY :: q).takeWhile (· != QUERY) = p.takeWhile (· != QUERY) := by
  induction p with
  | nil => rfl
  | cons c p ih =>
    rw [List.cons_append, List.takeWhile_cons, List.takeWhile_cons, ih]

/-- Up to the first `?` stands the path, behind it the query. -/
theorem ofOrigin_query (p q : Bytes) :
    p.takeWhile (· != QUERY) ++ QUERY :: (ofOrigin (p ++ QUERY :: q)).queryString =
      p ++ QUERY :: q := by
  have hbehind : (p ++ QUERY :: q).dropWhile (· != QUERY) ≠ [] := by
    intro hnil
    exact absurd (List.dropWhile_eq_nil_iff.mp hnil QUERY (by simp)) (by decide)
  obtain ⟨c, rest, hcons⟩ := List.exists_cons_of_ne_nil hbehind
  have hc := List.head?_dropWhile_not (· != QUERY) (p ++ QUERY :: q)
  rw [hcons, List.head?_cons] at hc
  obtain rfl : c = QUERY := by simpa using hc
  have hsplit := List.takeWhile_append_dropWhile (p := (· != QUERY)) (l := p ++ QUERY :: q)
  rw [takeWhile_query, hcons] at hsplit
  rw [ofOrigin, hcons]
  exact hsplit

theorem queryString_ofOrigin {text : Bytes} (h : QUERY ∉ text) (query : Bytes) :
    (ofOrigin (text ++ QUERY :: query)).queryString = query := by
  have hquery := ofOrigin_query text query
  have hall : ∀ c ∈ text, (c != QUERY) = true := fun c hc => bne_iff_ne.mpr fun heq => h (heq ▸ hc)
  rw [List.takeWhile_eq_self_iff.mpr hall] at hquery
  exact (List.cons.inj (List.append_cancel_left hquery)).2

/-- **A target that starts with `/`** is a path and a query, whatever bytes they hold: the short way
makes the URI that the parse makes, and of `p?q` the path is that of `p` and all behind the first `?`
the query. -/
theorem targets_agree (p : Bytes) (hp : p.head? = some SLASH) :
    (PERCENT ∉ p → QUERY ∉ p → ∀ serverHost serverPort parsed maxUriLength,
      parsed.path = p → p.length ≤ maxUriLength →
        HTTPRequest.needsFullParse p = false ∧
        ∃ uri, parse p = .ok uri ∧
          HTTPRequest.fromParsed serverHost serverPort parsed maxUriLength =
            .ok ⟨{ uri with host := serverHost, port := serverPort, requestUri := p },
              parsed.headers, parsed.method⟩) ∧
    ∀ q, ∃ alone uri, parse p = .ok alone ∧ parse (p ++ QUERY :: q) = .ok uri ∧
      uri.path = alone.path ∧
      (QUERY ∉ p → uri.queryString = q) ∧
      (QUERY ∈ p → uri.queryString = alone.queryString ++ QUERY :: q) ∧
      -- no scheme and no authority is read, and nothing is cut off as a fragment
      schemeSeparator (p ++ QUERY :: q) = none ∧
      userinfoSeparator (p ++ QUERY :: q) 0 = none ∧
      authorityEnd (p ++ QUERY :: q) 0 = 0 ∧
      uri.scheme = ascii "http" ∧ uri.host = [] ∧ uri.port = none ∧
      uri.requestUri = p ++ QUERY :: q ∧
      ∃ text, uri.path = unquote false [ascii "/"] text ∧ QUERY ∉ text ∧
        text ++ QUERY :: uri.queryString = p ++ QUERY :: q := by
  obtain ⟨t, rfl⟩ : ∃ t, p = SLASH :: t := by
    cases p with
    | nil => cases hp
    | cons c t => exact ⟨t, by rw [Option.some.inj hp]⟩
  constructor
  · intro hpercent hquery serverHost serverPort parsed maxUriLength hpath hfits
    have hshort : HTTPRequest.needsFullParse (SLASH :: t) = false := by
      unfold HTTPRequest.needsFullParse
      simp [hpercent, hquery]
    refine ⟨hshort, _, parse_origin t, ?_⟩
    unfold HTTPRequest.fromParsed
    rw [hpath, if_neg (by omega), HTTPRequest.targetUri_origin]
    rfl
  · intro q
    have hquery := ofOrigin_query (SLASH :: t) q
    refine ⟨_, _, parse_origin t, parse_origin (t ++ QUERY :: q), ?_, ?_, ?_,
      schemeSeparator_slash _, userinfoSeparator_slash _, authorityEnd_slash _, rfl, rfl, rfl, rfl,
      (SLASH :: t).takeWhile (· != QUERY), ?_, ?_, hquery⟩
    · exact congrArg (unquote false [ascii "/"]) (takeWhile_query (SLASH :: t) q)
    · intro hplain
      exact queryString_ofOrigin hplain q
    · intro hown
      -- the `?` that ends the path is one of `p` already
      obtain ⟨text, own, hsplit, htext⟩ := List.eq_append_cons_of_mem hown
      have hboth : SLASH :: (t ++ QUERY :: q) = text ++ QUERY :: (own ++ QUERY :: q) := by
        rw [← List.cons_append, hsplit, List.append_assoc, List.cons_append]
      rw [hboth, hsplit, queryString_ofOrigin htext, queryString_ofOrigin htext]
    · exact congrArg (unquote false [ascii "/"]) (takeWhile_query (SLASH :: t) q)
    · intro hmem
      exact absurd (List.mem_takeWhile_imp hmem) (by decide)

/-- A path with the bytes of a scheme, a userinfo and a fragment, then one with a query. -/
theorem targets_agree_go :
    (HTTPRequest.needsFullParse (ascii "/go://a@[b#c") = false ∧
      ∃ uri, parse (ascii "/go://a@[b#c") = .ok uri ∧
        HTTPRequest.fromParsed (ascii "h") none
            ⟨ascii "GET", ascii "/go://a@[b#c", ascii "HTTP/1.1", Headers.empty, [], 0⟩ 100 =
          .ok ⟨{ uri with host := ascii "h", port := none, requestUri := ascii "/go://a@[b#c" },
            Headers.empty, ascii "GET"⟩) ∧
    ∃ alone uri, parse (ascii "/a") = .ok alone ∧ parse (ascii "/a?u=http://b@c#d") = .ok uri ∧
      uri.path = alone.path ∧ uri.queryString = ascii "u=http://b@c#d" := by
  constructor
  · exact (targets_agree (ascii "/go://a@[b#c") rfl).1 (by decide) (by decide) (ascii "h") none
      ⟨ascii "GET", ascii "/go://a@[b#c", ascii "HTTP/1.1", Headers.empty, [], 0⟩ 100 rfl (by decide)
  · obtain ⟨alone, uri, halone, huri, hpath, hquery, -⟩ :=
      (targets_agree (ascii "/a") rfl).2 (ascii "u=http://b@c#d")
    exact ⟨alone, uri, halone, huri, hpath, hquery (by decide)⟩

/-- A target with a query of its own: another query behind it belongs to that one. -/
theorem second_query : ¬∀ p q uri, p.head? = some SLASH → parse (p ++ QUERY :: q) = .ok uri →
    uri.queryString = q := by
  intro h
  have hquery := h (ascii "/a?b") (ascii "c") _ rfl (parse_origin _)
  exact absurd hquery (by decide)

end MojoHttp.URI
