import MojoHttp.Lib.InsertionMap
import MojoHttp.Header.Request

/-!
# Request targets as URIs (`uri.mojo`, `from_parsed` of `http/request.mojo`)

The percent-decoder, the parse of a URI, and what of it a request carries.

* **`unquote`** — the byte walk; an escape of a byte that may not appear is kept as an escape.
* **`URI.parse`** — the scheme, the authority, the path and the query.
* **`HTTPRequest.fromParsed`** — the request of a parsed head: a plain path needs no URI parse.
* **`parse_origin`** — what the parse reads out of a target that starts with `/`.
-/

namespace MojoHttp

open BytesConstant

namespace ByteReader

/-- `read_until`: up to the byte or the end; the byte itself is left. -/
def readUntil (r : ByteReader) (char : UInt8) : Bytes × ByteReader :=
  let text := r.rest.takeWhile (· != char)
  (text, r.increment text.length)

/-- `read_bytes`: all that is left. -/
def readBytes (r : ByteReader) : Bytes := r.rest

end ByteReader

namespace URI

abbrev PERCENT : UInt8 := 0x25
abbrev PLUS : UInt8 := 0x2B
abbrev AT : UInt8 := 0x40
abbrev QUERY : UInt8 := 0x3F
abbrev HASH : UInt8 := 0x23
abbrev ITEM : UInt8 := 0x26
abbrev ITEM_ASSIGN : UInt8 := 0x3D

/-- `_hex_upper`. -/
def hexUpper (v : Nat) : UInt8 := (ascii "0123456789ABCDEF").getD v 0

/-- `_hex_value`; `none` is -1. -/
def hexValue (c : UInt8) : Option Nat :=
  if c ≥ 0x30 ∧ c ≤ 0x39 then some (c.toNat - 0x30)
  else if c ≥ 0x61 ∧ c ≤ 0x66 then some (c.toNat - 0x61 + 10)
  else if c ≥ 0x41 ∧ c ≤ 0x46 then some (c.toNat - 0x41 + 10)
  else none

/-- `_is_disallowed`. -/
def isDisallowed (v : UInt8) (disallowedEscapes : List Bytes) : Bool :=
  disallowedEscapes.any fun disallowed => disallowed.length == 1 && disallowed.getD 0 0 == v

/-- What an escape is read as: its byte, or the escape again. -/
def escaped (disallowedEscapes : List Bytes) (hi lo : Nat) : Bytes :=
  let v := UInt8.ofNat (hi * 16 + lo)
  if isDisallowed v disallowedEscapes then [PERCENT, hexUpper hi, hexUpper lo] else [v]

/-- A byte that starts no escape. -/
def plain (expandPlus : Bool) (c : UInt8) : UInt8 := if expandPlus && c == PLUS then 0x20 else c

/-- `unquote`. -/
def unquote (expandPlus : Bool) (disallowedEscapes : List Bytes) : Bytes → Bytes
  | [] => []
  | [c] => [plain expandPlus c]
  | [c, d] => [plain expandPlus c, plain expandPlus d]
  | c :: d :: e :: rest =>
    match c == PERCENT, hexValue d, hexValue e with
    | true, some hi, some lo =>
      escaped disallowedEscapes hi lo ++ unquote expandPlus disallowedEscapes rest
    | _, _, _ => plain expandPlus c :: unquote expandPlus disallowedEscapes (d :: e :: rest)

theorem unquote_cons_of_ne (expandPlus : Bool) (disallowedEscapes : List Bytes) {c : UInt8}
    (hc : c ≠ PERCENT) (t : Bytes) :
    unquote expandPlus disallowedEscapes (c :: t) =
      plain expandPlus c :: unquote expandPlus disallowedEscapes t := by
  have hne : (c == PERCENT) = false := beq_eq_false_iff_ne.mpr hc
  match t with
  | [] => rfl
  | [_] => rfl
  | d :: e :: rest => rw [unquote, hne]

theorem unquote_escape (expandPlus : Bool) (disallowedEscapes : List Bytes) {d e : UInt8} {hi lo : Nat}
    (hd : hexValue d = some hi) (he : hexValue e = some lo) (t : Bytes) :
    unquote expandPlus disallowedEscapes (PERCENT :: d :: e :: t) =
      escaped disallowedEscapes hi lo ++ unquote expandPlus disallowedEscapes t := by
  rw [unquote, hd, he, beq_self_eq_true]

/-- Bytes in front of an escape are read as they are. -/
theorem unquote_append_of_no_percent (disallowedEscapes : List Bytes) {s : Bytes} (h : PERCENT ∉ s)
    (t : Bytes) :
    unquote false disallowedEscapes (s ++ t) = s ++ unquote false disallowedEscapes t := by
  induction s with
  | nil => rfl
  | cons c s ih =>
    rw [List.mem_cons, not_or] at h
    rw [List.cons_append, unquote_cons_of_ne false _ (Ne.symm h.1), ih h.2]
    rfl

/-- A text without an escape is its own path. -/
theorem unquote_of_no_percent (disallowedEscapes : List Bytes) {t : Bytes} (h : PERCENT ∉ t) :
    unquote false disallowedEscapes t = t := by
  have happend := unquote_append_of_no_percent disallowedEscapes h []
  rw [List.append_nil, unquote, List.append_nil] at happend
  exact happend

/-! ## The separators -/

/-- `uri.find(needle)`. -/
def find (needle : Bytes) : Bytes → Option Nat
  | [] => if needle.isEmpty then some 0 else none
  | c :: rest =>
    if needle.isPrefixOf (c :: rest) then some 0 else (find needle rest).map (· + 1)

def isAlpha (c : UInt8) : Bool := (c ≥ 0x61 && c ≤ 0x7A) || (c ≥ 0x41 && c ≤ 0x5A)

/-- The loop of `scheme_separator` over what stands in front of the `://`. -/
def isScheme : Bytes → Bool
  | [] => true
  | c :: rest =>
    isAlpha c && rest.all fun c =>
      isAlpha c || (c ≥ 0x30 && c ≤ 0x39) || c == PLUS || c == 0x2D || c == DOT

/-- `scheme_separator`; `none` is -1. -/
def schemeSeparator (uri : Bytes) : Option Nat :=
  match find (ascii "://") uri with
  | none => none
  | some sep => if sep = 0 then none else if isScheme (uri.take sep) then some sep else none

/-- `authority_end`. -/
def authorityEnd (uri : Bytes) (authorityStart : Nat) : Nat :=
  authorityStart + ((uri.drop authorityStart).takeWhile fun c => !endsAuthority c).length

/-- `userinfo_separator`; `none` is -1. -/
def userinfoSeparator (uri : Bytes) (authorityStart : Nat) : Option Nat :=
  ((slice uri authorityStart (authorityEnd uri authorityStart)).findIdx? (· == AT)).map
    (authorityStart + ·)

/-! ## Queries -/

/-- `item.split(sep, 1)`. -/
def splitOnce (sep : UInt8) (item : Bytes) : Bytes × Option Bytes :=
  (item.takeWhile (· != sep),
    match item.dropWhile (· != sep) with
    | [] => none
    | _ :: value => some value)

/-- One turn of the loop over the query's items. -/
def addQuery (queries : InsertionMap Bytes Bytes) (item : Bytes) : InsertionMap Bytes Bytes :=
  let keyVal := splitOnce ITEM_ASSIGN item
  let key := unquote true [] keyVal.1
  if key.isEmpty then queries
  else
    let queries := queries.set key []
    match keyVal.2 with
    | some value => queries.set key (unquote true [] value)
    | none => queries

/-- The queries of a query string. -/
def parseQueries (query : Bytes) : InsertionMap Bytes Bytes :=
  if query.isEmpty then InsertionMap.empty
  else (query.splitOn ITEM).foldl addQuery InsertionMap.empty

/-! ## The authority's host and port -/

inductive PortError where
  | notDigits
  | tooLarge
  deriving Repr, DecidableEq

/-- The loop over a port's bytes. -/
def portValue : Bytes → (value : Nat) → Except PortError Nat
  | [], value => .ok value
  | b :: rest, value =>
    if b < ZERO ∨ b > NINE then .error .notDigits
    else
      let value := value * 10 + (b.toNat - ZERO.toNat)
      if value > 65535 then .error .tooLarge else portValue rest value

end URI

structure URIParseError where
  message : Bytes
  deriving Repr, DecidableEq

structure URI where
  scheme : Bytes
  path : Bytes
  queryString : Bytes
  queries : InsertionMap Bytes Bytes
  host : Bytes
  port : Option UInt16
  requestUri : Bytes

namespace URI

/-- The host and the port of an authority; `uri` is for the messages. -/
def hostAndPort (uri authority : Bytes) : Except URIParseError (Bytes × Option UInt16) :=
  -- the colons between the brackets of an IPv6 literal are not the port's
  let close := if authority.getD 0 0 = 0x5B then authority.findIdx? (· == 0x5D) else none
  if authority.getD 0 0 = 0x5B ∧ close = none then
    .error ⟨ascii "URI.parse: an IPv6 host with no closing ']': " ++ uri⟩
  else
    let portFrom := match close with
      | some i => i + 1
      | none => 0
    match (authority.drop portFrom).findIdx? (· == COLON) with
    | none => .ok (authority, none)
    | some i =>
      let colon := portFrom + i
      let digits := authority.drop (colon + 1)
      match portValue digits 0 with
      | .error .notDigits => .error ⟨ascii "URI.parse: a port is digits only: " ++ uri⟩
      | .error .tooLarge => .error ⟨ascii "URI.parse: a port above 65535: " ++ uri⟩
      | .ok value =>
        .ok (authority.take colon, if digits.isEmpty then none else some (UInt16.ofNat value))

/-- The path and the request URI: what stands at the authority's end says which. -/
def readPath (reader : ByteReader) (pathDelimiter : UInt8) : Bytes × Bytes × ByteReader :=
  if pathDelimiter = SLASH then
    let (text, reader') := reader.readUntil QUERY
    (unquote false [ascii "/"] text, reader.readBytes, reader')
  else if pathDelimiter = QUERY then (ascii "/", ascii "/" ++ reader.readBytes, reader)
  else (ascii "/", ascii "/", reader)

/-- `URI.parse` behind the authority. -/
def parsePath (result : URI) (reader : ByteReader) : URI :=
  match reader.tryPeek with
  | none => result
  | some pathDelimiter =>
    let (path, requestUri, reader) := readPath reader pathDelimiter
    let result := { result with requestUri, path }
    match reader.tryPeek with
    | none => result
    | some queryDelimiter =>
      let query := if queryDelimiter = QUERY then reader.readBytes.drop 1 else []
      { result with queries := parseQueries query, queryString := query }

/-- `URI.parse`. -/
def parse (uri : Bytes) : Except URIParseError URI :=
  let schemeSep := schemeSeparator uri
  let authorityStart := match schemeSep with
    | some sep => sep + 3
    | none => 0
  let userinfoAt := userinfoSeparator uri authorityStart
  let hostStart := match userinfoAt with
    | some i => i + 1
    | none => authorityStart
  let authorityDelimiter := uri.getD (authorityEnd uri hostStart) SLASH
  let reader : ByteReader := ⟨uri, 0⟩
  let (scheme, reader) := match schemeSep with
    | some _ =>
      let (scheme, reader) := reader.readUntil COLON
      (scheme, reader.increment 3)
    | none => (ascii "http", reader)
  let reader := match userinfoAt with
    | some i => reader.increment (i + 1 - reader.readPos)
    | none => reader
  let (authority, reader) := reader.readUntil authorityDelimiter
  match hostAndPort uri authority with
  | .error e => .error e
  | .ok (host, port) =>
    .ok (parsePath ⟨scheme, ascii "/", [], InsertionMap.empty, host, port, ascii "/"⟩ reader)

/-! ## A target that starts with `/` -/

/-- A scheme starts with a letter. -/
theorem schemeSeparator_slash (t : Bytes) : schemeSeparator (SLASH :: t) = none := by
  unfold schemeSeparator
  cases find (ascii "://") (SLASH :: t) with
  | none => rfl
  | some sep =>
    cases sep with
    | zero => rfl
    | succ sep =>
      have hscheme : isScheme ((SLASH :: t).take (sep + 1)) = false := by
        rw [List.take_succ_cons, isScheme, show isAlpha SLASH = false from by decide, Bool.false_and]
      simp only [hscheme]
      simp

theorem authorityEnd_slash (t : Bytes) : authorityEnd (SLASH :: t) 0 = 0 := by
  unfold authorityEnd
  rw [List.drop_zero, List.takeWhile_cons, show endsAuthority SLASH = true from by decide]
  rfl

theorem userinfoSeparator_slash (t : Bytes) : userinfoSeparator (SLASH :: t) 0 = none := by
  unfold userinfoSeparator
  rw [authorityEnd_slash, slice_self]
  rfl

theorem readUntil_slash (t : Bytes) :
    (ByteReader.mk (SLASH :: t) 0).readUntil SLASH = ([], ⟨SLASH :: t, 0⟩) := by
  simp [ByteReader.readUntil, ByteReader.rest, ByteReader.increment]

/-- The URI a target that starts with `/` is. -/
def ofOrigin (uri : Bytes) : URI :=
  let query := (uri.dropWhile (· != QUERY)).drop 1
  { scheme := ascii "http"
    path := unquote false [ascii "/"] (uri.takeWhile (· != QUERY))
    queryString := query
    queries := parseQueries query
    host := []
    port := none
    requestUri := uri }

theorem parsePath_slash (result : URI) (t : Bytes) (hqs : result.queryString = [])
    (hq : result.queries = InsertionMap.empty) :
    parsePath result ⟨SLASH :: t, 0⟩ =
      { ofOrigin (SLASH :: t) with scheme := result.scheme, host := result.host, port := result.port } := by
  have hrest : (ByteReader.mk (SLASH :: t) 0).rest = SLASH :: t := by
    rw [ByteReader.rest, List.drop_zero]
  have hread : readPath ⟨SLASH :: t, 0⟩ SLASH =
      (unquote false [ascii "/"] ((SLASH :: t).takeWhile (· != QUERY)), SLASH :: t,
        ⟨SLASH :: t, 0 + ((SLASH :: t).takeWhile (· != QUERY)).length⟩) := by
    unfold readPath ByteReader.readUntil ByteReader.readBytes ByteReader.increment
    rw [if_pos rfl, hrest]
  have hbehind : (ByteReader.mk (SLASH :: t) (0 + ((SLASH :: t).takeWhile (· != QUERY)).length)).rest =
      (SLASH :: t).dropWhile (· != QUERY) := by
    rw [ByteReader.rest, Nat.zero_add]
    conv_lhs => rw [← List.takeWhile_append_dropWhile (p := (· != QUERY)) (l := SLASH :: t)]
    rw [List.drop_left' (by rw [List.takeWhile_append_dropWhile])]
  have hhead := List.head?_dropWhile_not (· != QUERY) (SLASH :: t)
  unfold parsePath
  rw [ByteReader.tryPeek_eq, hrest]
  simp only [List.head?_cons, hread, ByteReader.tryPeek_eq, hbehind, ofOrigin]
  cases hdrop : (SLASH :: t).dropWhile (· != QUERY) with
  | nil =>
    -- no query: the target ends with its path
    simp only [List.head?_nil, hqs, hq, List.drop_nil, parseQueries, List.isEmpty_nil, if_true]
  | cons c rest =>
    rw [hdrop, List.head?_cons] at hhead
    have hc : c = QUERY := by simpa using hhead
    simp only [List.head?_cons, hc, if_true, ByteReader.readBytes, hbehind, hdrop]

/-- **A target that starts with `/`** has no authority: its path runs to the first `?`, its query
from there to the end. -/
theorem parse_origin (t : Bytes) : parse (SLASH :: t) = .ok (ofOrigin (SLASH :: t)) := by
  unfold parse
  rw [schemeSeparator_slash]
  simp only [userinfoSeparator_slash, authorityEnd_slash, List.getD_cons_zero, readUntil_slash]
  have hauthority : hostAndPort (SLASH :: t) [] = .ok ([], none) := rfl
  rw [hauthority]
  show Except.ok (parsePath _ _) = _
  rw [parsePath_slash _ t rfl rfl]
  rfl

end URI

/-! ## The request of a parsed head -/

inductive RequestBuildError where
  | uriTooLong
  | requestUri
  deriving Repr, DecidableEq

/-- What of an `HTTPRequest` is read here. -/
structure HTTPRequest where
  uri : URI
  headers : Headers
  method : Bytes

namespace HTTPRequest

/-- `needs_full_parse`. -/
def needsFullParse (path : Bytes) : Bool :=
  path != ascii "*" && (path.length == 0 || path.getD 0 0 != SLASH || path.contains URI.PERCENT ||
    path.contains URI.QUERY)

/-- The URI of a request target. -/
def targetUri (serverHost : Bytes) (serverPort : Option UInt16) (path : Bytes) :
    Except RequestBuildError URI :=
  if needsFullParse path then
    match URI.parse path with
    | .error _ => .error .requestUri
    | .ok uri => .ok { uri with host := serverHost, port := serverPort, requestUri := path }
  else
    .ok ⟨ascii "http", path, [], InsertionMap.empty, serverHost, serverPort, path⟩

/-- **The short way and the parse agree**: of a target that starts with `/` both make one URI. -/
theorem targetUri_origin (serverHost : Bytes) (serverPort : Option UInt16) (t : Bytes) :
    targetUri serverHost serverPort (SLASH :: t) =
      .ok { URI.ofOrigin (SLASH :: t) with host := serverHost, port := serverPort } := by
  unfold targetUri
  split
  · rw [URI.parse_origin]
    rfl
  · next hshort =>
    have hplain : URI.PERCENT ∉ SLASH :: t ∧ URI.QUERY ∉ SLASH :: t := by
      have hstar : (SLASH :: t != ascii "*") = true := by
        rw [bne_iff_ne]
        intro heq
        exact absurd (List.cons.inj heq).1 (by decide)
      rw [needsFullParse, hstar] at hshort
      simpa using hshort
    have hall : ∀ c ∈ SLASH :: t, (c != URI.QUERY) = true := by
      intro c hc
      rw [bne_iff_ne]
      intro heq
      exact hplain.2 (heq ▸ hc)
    unfold URI.ofOrigin
    rw [List.takeWhile_eq_self_iff.mpr hall, List.dropWhile_eq_nil_iff.mpr hall,
      URI.unquote_of_no_percent _ hplain.1]
    rfl

/-- `from_parsed`. The body's coding, the cookies and the protocol are left out. -/
def fromParsed (serverHost : Bytes) (serverPort : Option UInt16) (parsed : ParsedRequestHeaders)
    (maxUriLength : Nat) : Except RequestBuildError HTTPRequest :=
  if parsed.path.length > maxUriLength then .error .uriTooLong
  else
    match targetUri serverHost serverPort parsed.path with
    | .error e => .error e
    | .ok uri => .ok ⟨uri, parsed.headers, parsed.method⟩

end HTTPRequest

end MojoHttp
