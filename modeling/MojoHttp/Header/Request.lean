import MojoHttp.Header.Host
import MojoHttp.Header.Store
import MojoHttp.Http.Parsing

/-!
# `parse_request_headers`

The request a head makes, or the error it is refused with: the target reduced to its path, the
field lines stored one by one with the checks a line can fail on its own, then the checks that
ask about the whole head.
-/

namespace MojoHttp

open BytesConstant

inductive RequestParseError where
  | emptyBuffer
  | invalid
  | incomplete
  | unsupported
  deriving Repr, DecidableEq

structure ParsedRequestHeaders where
  method : Bytes
  path : Bytes
  protocol : Bytes
  headers : Headers
  cookies : List Bytes
  /-- Includes the final CR LF CR LF. -/
  bytesConsumed : Nat

namespace ParsedRequestHeaders

def contentLength (p : ParsedRequestHeaders) : Int := p.headers.contentLength

/-- `while a > 0 and te[a - 1] != ',': a -= 1`. -/
def lastMemberStart (te : Bytes) : Nat → Nat
  | 0 => 0
  | a + 1 => if te.getD a 0 ≠ COMMA then lastMemberStart te a else a + 1

/-- The final coding of the stored `Transfer-Encoding` is `chunked`. -/
def isChunkedBody (p : ParsedRequestHeaders) : Bool :=
  match p.headers.knownIndex .transferEncoding with
  | none => false
  | some i =>
    let te := p.headers.valueSpan i
    let last := trimOws te (lastMemberStart te te.length) te.length
    nameIs (slice te last.1 last.2) (ascii "chunked")

end ParsedRequestHeaders

/-! ## The target -/

/-- The target's path, and for an absolute-form target the length of its scheme and its
authority. -/
structure Target where
  path : Bytes
  schemeLen : Nat
  authority : Bytes
  deriving Repr, DecidableEq

/-- `/`, `?` or `#`: where an authority ends. -/
def endsAuthority (c : UInt8) : Bool := c == 0x2F || c == 0x3F || c == 0x23

/-- Where the authority of an absolute-form target ends; `k` is what is left of it. -/
def authorityEnd (target : Bytes) : (k i : Nat) → Nat
  | 0, i => i
  | k + 1, i => if endsAuthority (target.getD i 0) then i else authorityEnd target k (i + 1)

/-- The four target forms, CONNECT's left for the end of the parse. -/
def reduceTarget (method path : Bytes) : Except RequestParseError Target :=
  let schemeLen := httpSchemeLen path
  if schemeLen = 0 then
    if path.getD 0 0 ≠ 0x2F ∧ ¬(path = ascii "*" ∧ method = ascii "OPTIONS")
        ∧ method ≠ ascii "CONNECT" then .error .invalid
    else .ok ⟨path, 0, []⟩
  else
    let stop := authorityEnd path (path.length - schemeLen) schemeLen
    let authority := slice path schemeLen stop
    if stop = schemeLen then .error .invalid
    else if authority.any (· == 0x40) then .error .invalid
    else if !hostValueIsValid authority then .error .invalid
    else
      let opening := if stop = path.length ∨ path.getD stop 0 ≠ 0x2F then ascii "/" else []
      .ok ⟨opening ++ path.drop stop, schemeLen, authority⟩

/-! ## The field lines -/

/-- What the loop over the field lines carries. `hostLen` is -1 (`none`) while no Host line
has been seen; `connection` is the list the `Connection` lines join into, empty with one line
or none. -/
structure FieldState where
  headers : Headers
  cookies : List Bytes
  seenContentLength : Bool
  seenTransferEncoding : Bool
  hostLen : Option Nat
  connection : Bytes

/-- A field line's value without the SP and HTAB at either end. -/
def fieldValue (buffer : Bytes) (line : HTTPHeader) : Bytes :=
  let vb := line.value buffer
  let bounds := trimOws vb 0 vb.length
  slice vb bounds.1 bounds.2

/-- One field line. -/
def fieldStep (w : IndexWords) (buffer : Bytes) (st : FieldState) (line : HTTPHeader) :
    Except RequestParseError FieldState :=
  let nameBytes := line.name buffer
  let value := fieldValue buffer line
  let kid := knownHeaderId nameBytes
  let stored := st.headers.setBytesKnown w nameBytes value kid
  match kid with
  | some .cookie => .ok { st with cookies := st.cookies ++ [value] }
  | some .contentLength =>
    if st.seenContentLength then .error .invalid
    else if value.length = 0 then .error .invalid
    else if !value.all isDigit then .error .invalid
    else if value.length > 18 then .error .invalid
    else .ok { st with seenContentLength := true, headers := stored }
  | some .host =>
    if st.hostLen.isSome then .error .invalid
    else if value.length > 0 ∧ hostValueIsValid value = false then .error .invalid
    else .ok { st with hostLen := some value.length, headers := stored }
  | some .transferEncoding =>
    if st.seenTransferEncoding then .error .invalid
    else .ok { st with seenTransferEncoding := true, headers := stored }
  | some .connection =>
    match st.headers.knownIndex .connection with
    | some i =>
      let first := if st.connection.length = 0 then st.headers.valueSpan i else st.connection
      .ok { st with connection := first ++ [0x2C, 0x20] ++ value }
    | none => .ok { st with headers := stored }
  | _ => .ok { st with headers := stored }

def fieldLoop (w : IndexWords) (buffer : Bytes) :
    FieldState → List HTTPHeader → Except RequestParseError FieldState
  | st, [] => .ok st
  | st, line :: lines =>
    match fieldStep w buffer st line with
    | .error e => .error e
    | .ok st => fieldLoop w buffer st lines

/-- The joined `Connection` and `Cookie` fields, put back behind the loop. -/
def joinFields (w : IndexWords) (st : FieldState) : Headers :=
  let headers :=
    if st.connection.length > 0 then
      st.headers.setBytesKnown w KnownHeader.connection.name st.connection (some .connection)
    else st.headers
  if st.cookies.length > 0 then
    headers.setBytesKnown w KnownHeader.cookie.name ((ascii "; ").intercalate st.cookies)
      (some .cookie)
  else headers

/-! ## `Transfer-Encoding` -/

/-- The walk over the codings: whether a coding that is not `chunked` stands before the last,
and whether the last is `chunked`. `fuel` bounds the turns. -/
def codingWalk (te : Bytes) : (fuel start : Nat) → (otherCoding lastIsChunked : Bool) →
    Except RequestParseError (Bool × Bool)
  | 0, _, other, last => .ok (other, last)
  | fuel + 1, start, other, last =>
    if start ≤ te.length then
      let (a, b, next) := nextListMember te start
      let isChunked := nameIs (slice te a b) (ascii "chunked")
      if next = te.length + 1 then codingWalk te fuel next other isChunked
      else if isChunked then .error .invalid
      else codingWalk te fuel next (if b > a then true else other) last
    else .ok (other, last)

/-- `chunked` last, and nothing but empty members before it. -/
def checkCodings (te : Bytes) : Except RequestParseError Unit :=
  match codingWalk te (te.length + 1) 0 false false with
  | .error e => .error e
  | .ok (otherCoding, lastIsChunked) =>
    if !lastIsChunked then .error .invalid
    else if otherCoding then .error .unsupported
    else .ok ()

/-! ## The whole head -/

/-- The checks behind the field loop, in the source's order, and the request they let through. -/
def finishRequest (w : IndexWords) (head : RequestHead) (target : Target) (st : FieldState) :
    Except RequestParseError ParsedRequestHeaders :=
  let headers := joinFields w st
  if st.seenTransferEncoding && st.seenContentLength then .error .invalid
  else if head.minorVersion ≥ 1 ∧
      (st.hostLen = none ∨ (st.hostLen = some 0 ∧ target.schemeLen > 0)) then .error .invalid
  else
    let headers :=
      if target.schemeLen > 0 then
        headers.setBytesKnown w KnownHeader.host.name target.authority (some .host)
      else headers
    let codings :=
      if st.seenTransferEncoding then
        match headers.knownIndex .transferEncoding with
        | some i => checkCodings (headers.valueSpan i)
        | none => .ok ()
      else .ok ()
    match codings with
    | .error e => .error e
    | .ok () =>
      if head.method = ascii "CONNECT" then .error .unsupported
      else
        .ok {
          method := head.method
          path := target.path
          protocol := ascii "HTTP/1." ++ ascii (toString head.minorVersion)
          headers
          cookies := st.cookies
          bytesConsumed := head.consumed }

def maxHeaders : Nat := 100

def parseRequestHeaders (w : IndexWords) (buffer : Bytes) :
    Except RequestParseError ParsedRequestHeaders :=
  if buffer.length = 0 then .error .emptyBuffer
  else
    match httpParseRequestHeaders buffer maxHeaders with
    | .error .parseError => .error .invalid
    | .error .incompleteError => .error .incomplete
    | .ok head =>
      match reduceTarget head.method head.path with
      | .error e => .error e
      | .ok target =>
        let headers := Headers.empty.reserve head.consumed head.headers.length
        match fieldLoop w buffer ⟨headers, [], false, false, none, []⟩ head.headers with
        | .error e => .error e
        | .ok st => finishRequest w head target st

/-! ## Bytes consumed -/

theorem finishRequest_consumed {w : IndexWords} {head : RequestHead} {target : Target}
    {st : FieldState} {p : ParsedRequestHeaders} (h : finishRequest w head target st = .ok p) :
    p.bytesConsumed = head.consumed := by
  unfold finishRequest at h
  dsimp only at h
  split at h
  · cases h
  · split at h
    · cases h
    · split at h
      · cases h
      · split at h
        · cases h
        · cases h
          rfl

/-- An accepted request is a head the tokenizer took whole. -/
theorem parseRequestHeaders_head {w : IndexWords} {buffer : Bytes} {p : ParsedRequestHeaders}
    (h : parseRequestHeaders w buffer = .ok p) :
    ∃ head, httpParseRequestHeaders buffer maxHeaders = .ok head ∧
      p.bytesConsumed = head.consumed := by
  unfold parseRequestHeaders at h
  split at h
  · cases h
  · split at h
    · cases h
    · cases h
    · rename_i head hhead
      split at h
      · cases h
      · dsimp only at h
        split at h
        · cases h
        · exact ⟨head, hhead, finishRequest_consumed h⟩

end MojoHttp
