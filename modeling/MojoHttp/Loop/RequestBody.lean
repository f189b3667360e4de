import MojoHttp.Framing
import MojoHttp.Http.ChunkedGrammar
import MojoHttp.Http.ChunkedSplit

/-!
# Reading a request, head and body (`loop/request.mojo`)

A slot's receive buffer is laid out `[answered requests][head][body decoded so far][raw tail]`.
`frameBuffered` acts on the head once it is whole, on what came with it; `readBody` takes each
read after; both hand the raw tail of a chunked body to `decodeChunkedTail`, which holds it to
the two bounds. The timers, the interim response and the peer's EOF are left out.

* **`runRequest`** — one request: what an earlier read left of it is framed by the drain, then
  read after read.
* **`decode_resumed`** — a resumed decoder answers as a fresh one on all the bytes: its counters
  are those of one call.
* **`Ends`**, **`readAll_ends`** — how a run ends: answered, refused 413, or refused 400 at a read
  boundary where the decoder's overhead guard fires.
-/

namespace MojoHttp

open BytesConstant Resumable CrlfText

/-! ## The slot -/

/-- What the loop bounds a request by (`server_config.mojo`). -/
structure RequestLimits where
  maxTotalHeaderSize : Int
  maxRequestUriLength : Int
  maxRequestBodySize : Int
  /-- A floor; the ceiling is `recvBufferLimit`. -/
  recvBufferMax : Int
  deriving Repr, DecidableEq

namespace RequestLimits

/-- `recv_buffer_limit`. -/
def recvBufferLimit (c : RequestLimits) : Int :=
  let allowance := wrapInt (c.maxTotalHeaderSize + c.maxRequestBodySize)
  if c.recvBufferMax > allowance then c.recvBufferMax else allowance

/-- `2 * max_request_body_size`. -/
def rawLimit (c : RequestLimits) : Int := wrapInt (2 * c.maxRequestBodySize)

/-- What `frame_request_head` is given. -/
def head (c : RequestLimits) : HeadLimits :=
  ⟨c.maxTotalHeaderSize, c.maxRequestUriLength, c.maxRequestBodySize⟩

end RequestLimits

structure BodyReadState where
  contentLength : Int
  /-- For a chunked body, the bytes decoded. -/
  bytesRead : Nat
  headerEndOffset : Nat
  isChunked : Bool
  deriving Repr, DecidableEq

/-- What becomes of the request. -/
inductive RequestEnd where
  /-- Handed to `_process_request` with this body. -/
  | answered (parsed : Option ParsedRequestHeaders) (body : Bytes)
  /-- The framing's refusal. -/
  | refused (rule : RefusedRule)
  /-- 400 and a close. -/
  | badRequest
  /-- `_refuse_too_large`: 413, then the linger. -/
  | tooLarge

inductive ReadState where
  | readingHeaders
  | readingBody
  | ended (result : RequestEnd)

/-- What a `ConnectionProvision` holds of the request being read. -/
structure RequestSlot where
  recvBuffer : Bytes
  /-- Where in the buffer the request begins. -/
  headStart : Nat
  lastParseLen : Nat
  parsedHeaders : Option ParsedRequestHeaders
  bodyState : Option BodyReadState
  chunkDecoder : HTTPChunkedDecoder
  /-- Where it ends; 0 until known. -/
  requestEnd : Int
  state : ReadState

namespace RequestSlot

def pendingLen (s : RequestSlot) : Nat := s.recvBuffer.length - s.headStart

def compactBuffer (s : RequestSlot) : RequestSlot :=
  { s with recvBuffer := s.recvBuffer.drop s.headStart, headStart := 0 }

/-- The slot between requests: `front` is answered, `tail` was read with it. -/
def ready (front tail : Bytes) : RequestSlot :=
  ⟨front ++ tail, front.length, 0, none, none, .fresh true, 0, .readingHeaders⟩

end RequestSlot

/-- `List.resize(n, 0)`. -/
def resizeBytes (l : Bytes) (n : Nat) : Bytes := l.take n ++ List.replicate (n - l.length) 0

/-! ## The read path -/

/-- `_process_request`, up to the request's body. -/
def processRequest (s : RequestSlot) : RequestSlot :=
  let body :=
    match s.bodyState with
    | none => []
    | some body =>
      if body.headerEndOffset + body.contentLength ≤ s.recvBuffer.length then
        slice s.recvBuffer body.headerEndOffset (body.headerEndOffset + body.contentLength.toNat)
      else []
  { s with parsedHeaders := none, state := .ended (.answered s.parsedHeaders body) }

/-- `_decode_chunked_tail`; `body` is the slot's `body_state`. -/
def decodeChunkedTail (c : RequestLimits) (s : RequestSlot) (body : BodyReadState) : RequestSlot :=
  let tailStart := body.headerEndOffset + body.bytesRead
  let r := s.chunkDecoder.decode (s.recvBuffer.drop tailStart)
  -- the decoder works in place on the buffer's tail
  let s := { s with recvBuffer := s.recvBuffer.take tailStart ++ r.buf, chunkDecoder := r.decoder }
  if r.ret = -1 then { s with state := .ended .badRequest }
  else
    let leftover := r.decoder.pendingBytes
    let body := { body with bytesRead := body.bytesRead + r.size }
    let s := { s with
      recvBuffer := resizeBytes s.recvBuffer (tailStart + r.size + leftover)
      bodyState := some body }
    if (body.bytesRead : Int) > c.maxRequestBodySize ∨ r.decoder.totalRead > c.rawLimit then
      { s with state := .ended .tooLarge }
    else if r.ret ≥ 0 then
      processRequest { s with
        requestEnd := body.headerEndOffset + body.bytesRead
        bodyState := some { body with contentLength := body.bytesRead, isChunked := false } }
    else s

/-- `_frame_buffered`. -/
def frameBuffered (w : IndexWords) (c : RequestLimits) (s : RequestSlot) : RequestSlot :=
  let start := s.headStart
  let answer := frameRequestHead w c.head (s.recvBuffer.drop start) s.lastParseLen s.parsedHeaders
  let framing := answer.1
  let s := { s with parsedHeaders := answer.2 }
  match framing.outcome with
  | .incomplete =>
    let pending : Nat := s.pendingLen
    if (pending : Int) > c.recvBufferLimit then { s with state := .ended .badRequest }
    else { s with lastParseLen := pending }
  | .refused =>
    if framing.rule = .bodyTooLarge then { s with state := .ended .tooLarge }
    else { s with state := .ended (.refused framing.rule) }
  | .request =>
    let headerEndOffset := start + framing.headEnd
    let isChunked := decide (framing.body = .chunked)
    let bodyBytesInBuffer := s.recvBuffer.length - headerEndOffset
    if framing.body ≠ .none then
      let body : BodyReadState :=
        ⟨if isChunked then c.maxRequestBodySize else framing.contentLength,
          if isChunked then 0 else bodyBytesInBuffer, headerEndOffset, isChunked⟩
      let s := { s with
        bodyState := some body
        requestEnd := if isChunked then 0 else start + framing.requestEnd
        state := .readingBody }
      if isChunked ∧ bodyBytesInBuffer > 0 then decodeChunkedTail c s body
      else if !isChunked ∧ (bodyBytesInBuffer : Int) ≥ framing.contentLength then processRequest s
      else s
    else processRequest { s with requestEnd := start + framing.requestEnd }

/-- `_handle_read_headers`, its read bringing `bytes`. -/
def handleReadHeaders (w : IndexWords) (c : RequestLimits) (s : RequestSlot) (bytes : Bytes) :
    RequestSlot :=
  let s := s.compactBuffer
  frameBuffered w c { s with recvBuffer := s.recvBuffer ++ bytes }

/-- `_read_body`, its read bringing `bytes`. -/
def readBody (c : RequestLimits) (s : RequestSlot) (bytes : Bytes) : RequestSlot :=
  match s.bodyState with
  | none => s
  | some body =>
    let body :=
      if body.isChunked then body else { body with bytesRead := body.bytesRead + bytes.length }
    let s := { s with recvBuffer := s.recvBuffer ++ bytes, bodyState := some body }
    if body.isChunked then
      if s.recvBuffer.length > body.headerEndOffset + body.bytesRead then
        decodeChunkedTail c s body
      else s
    else if (body.bytesRead : Int) ≥ body.contentLength then processRequest s
    else s

/-- `_on_read`: what the slot is doing decides. -/
def onRead (w : IndexWords) (c : RequestLimits) (s : RequestSlot) (bytes : Bytes) : RequestSlot :=
  match s.state with
  | .readingHeaders => handleReadHeaders w c s bytes
  | .readingBody => readBody c s bytes
  | .ended _ => s

def readAll (w : IndexWords) (c : RequestLimits) (s : RequestSlot) (reads : List Bytes) :
    RequestSlot :=
  reads.foldl (onRead w c) s

/-- `_drain_pipelined`: what an answered request's reads left of this one is framed first. -/
def drainPipelined (w : IndexWords) (c : RequestLimits) (s : RequestSlot) : RequestSlot :=
  if s.pendingLen > s.lastParseLen then frameBuffered w c s else s

/-- One request: `tail` came with the answered `front`, `reads` after. -/
def runRequest (w : IndexWords) (c : RequestLimits) (front tail : Bytes) (reads : List Bytes) :
    RequestSlot :=
  readAll w c (drainPipelined w c (.ready front tail)) reads

/-! ## A resumed decoder -/

/-- The machine from the first byte of a body. -/
def runBody (bytes : Bytes) : Outcome UInt8 Phase UInt8 Bool := (chunked true).run (.size false 0) bytes

/-- The decoder has taken `part` of a body, `out` decoded, and the body goes on. -/
structure DecoderAt (part out : Bytes) (d : HTTPChunkedDecoder) : Prop where
  run : ∃ p, runBody part = .waiting p [] out ∧ Shows d p
  consumeTrailer : d.consumeTrailer = true
  totalRead : d.totalRead = part.length
  totalOverhead : d.totalOverhead = part.length - out.length

theorem decoderAt_fresh : DecoderAt [] [] (.fresh true) where
  run := ⟨.size false 0, Machine.run_ofNext_nil _, shows_fresh true⟩
  consumeTrailer := rfl
  totalRead := rfl
  totalOverhead := rfl

/-- The run goes on where the decoder stands. -/
theorem DecoderAt.resume {part out : Bytes} {d : HTTPChunkedDecoder} (hd : DecoderAt part out d)
    (buf : Bytes) : ∃ p, Shows d p ∧
      runBody (part ++ buf) = ((chunked d.consumeTrailer).run p buf).after out := by
  obtain ⟨p, hrun, hs⟩ := hd.run
  refine ⟨p, hs, ?_⟩
  have happ := Machine.run_append (M := chunked true) Machine.ofNext_isResumable (.size false 0) part buf
  unfold runBody at hrun ⊢
  rw [happ, hrun, hd.consumeTrailer]
  rfl

/-- What a call leaves that takes all of `buf` and wants more of the body. -/
structure TakesAll (part out buf out' : Bytes) (r : Decoded) : Prop where
  ret : r.ret = -2
  size : out'.length = out.length + r.size
  decoded : out' = out ++ r.buf.take r.size
  pendingBytes : r.decoder.pendingBytes = 0
  length : r.buf.length = buf.length
  decoder : DecoderAt (part ++ buf) out' r.decoder

theorem DecoderAt.takesAll {part out buf out' : Bytes} {d : HTTPChunkedDecoder} {p : Phase}
    (hd : DecoderAt part out d) (hrun : runBody (part ++ buf) = .waiting p [] out') :
    TakesAll part out buf out' (d.decodeCore buf) := by
  obtain ⟨q, hs, hresume⟩ := hd.resume buf
  have hcall := decodeCore_spec hs buf
  rw [hrun] at hresume
  cases ho : (chunked d.consumeTrailer).run q buf with
  | closed t rest o =>
    rw [ho] at hresume
    cases hresume
  | waiting q' tail o =>
    rw [ho] at hresume hcall
    have hw : Waits d buf (d.decodeCore buf) q' o := hcall
    injection hresume with hq htail hout
    have hlen : out'.length = out.length + o.length := by rw [hout, List.length_append]
    refine ⟨hw.ret, ?_, ?_, hw.pendingBytes, hw.length, ?_⟩
    · rw [hw.size, hlen]
    · rw [hw.decoded, hout]
    · refine ⟨⟨p, hrun, hq ▸ hw.shows⟩, hw.consumeTrailer.trans hd.consumeTrailer, ?_, ?_⟩
      · rw [hw.totalRead, hd.totalRead, List.length_append, Nat.cast_add]
      · rw [hw.totalOverhead, hd.totalOverhead, List.length_append, hlen]
        push_cast
        ring

/-- What a call leaves that completes the body, `rest` behind it. -/
structure TakesEnd (part out buf rest out' : Bytes) (r : Decoded) : Prop where
  ret : r.ret = rest.length
  size : out'.length = out.length + r.size
  decoded : out' = out ++ r.buf.take r.size
  leftover : slice r.buf r.size (r.size + r.decoder.pendingBytes) = rest
  pendingBytes : r.decoder.pendingBytes = rest.length
  length : r.buf.length = buf.length
  totalRead : r.decoder.totalRead + rest.length = (part ++ buf).length

theorem DecoderAt.takesEnd {part out buf rest out' : Bytes} {d : HTTPChunkedDecoder}
    (hd : DecoderAt part out d) (hrun : runBody (part ++ buf) = .closed true rest out') :
    TakesEnd part out buf rest out' (d.decodeCore buf) := by
  obtain ⟨q, hs, hresume⟩ := hd.resume buf
  have hcall := decodeCore_spec hs buf
  rw [hrun] at hresume
  cases ho : (chunked d.consumeTrailer).run q buf with
  | waiting q' tail o =>
    rw [ho] at hresume
    cases hresume
  | closed t rest' o =>
    rw [ho] at hresume hcall
    injection hresume with ht hrest hout
    subst ht hrest
    have hc : Completes d buf (d.decodeCore buf) rest o := hcall
    have hlen : out'.length = out.length + o.length := by rw [hout, List.length_append]
    have hret : (d.decodeCore buf).ret ≠ -1 := by
      rw [hc.ret]
      omega
    have htotal := totalRead_decodeCore hs hret
    rw [hc.pendingBytes, hd.totalRead] at htotal
    refine ⟨hc.ret, ?_, ?_, hc.leftover, hc.pendingBytes, hc.length, ?_⟩
    · rw [hc.size, hlen]
    · rw [hc.decoded, hout]
    · rw [htotal, List.length_append, Nat.cast_add]

/-- **The guard of a resumed decoder is the guard of one call** on all the bytes so far. -/
theorem DecoderAt.guardFires {part out buf out' : Bytes} {d : HTTPChunkedDecoder} {p : Phase}
    (hd : DecoderAt part out d) (hrun : runBody (part ++ buf) = .waiting p [] out') :
    d.guardFires buf = (HTTPChunkedDecoder.fresh true).guardFires (part ++ buf) := by
  have hresumed := hd.takesAll hrun
  have hwhole : TakesAll [] [] (part ++ buf) out' _ := decoderAt_fresh.takesAll hrun
  have hread := hwhole.decoder.totalRead
  have hover := hwhole.decoder.totalOverhead
  rw [List.nil_append] at hread hover
  unfold HTTPChunkedDecoder.guardFires HTTPChunkedDecoder.overheadIsExcessive
  rw [hresumed.ret, hwhole.ret, hresumed.decoder.totalRead, hread, hresumed.decoder.totalOverhead,
    hover]

/-- A part of a whole body leaves the machine waiting, and decodes a part of its bytes. -/
theorem runBody_part {part more decoded : Bytes} (hmore : more ≠ [])
    (hrun : runBody (part ++ more) = .closed true [] decoded) :
    ∃ p out, runBody part = .waiting p [] out ∧ out.length ≤ decoded.length := by
  have happ := Machine.run_append (M := chunked true) Machine.ofNext_isResumable (.size false 0) part more
  unfold runBody at hrun ⊢
  rw [hrun] at happ
  cases hpart : (chunked true).run (.size false 0) part with
  | closed t rest out =>
    rw [hpart] at happ
    injection happ with _ hrest
    exact absurd (List.append_eq_nil_iff.mp hrest.symm).2 hmore
  | waiting p tail out =>
    have htail : tail = [] := Machine.tail_of_ofNext_waiting hpart
    subst htail
    rw [hpart] at happ
    refine ⟨p, out, rfl, ?_⟩
    simp only [Machine.resume, List.nil_append] at happ
    cases ho : (chunked true).run p more with
    | waiting q tail o =>
      rw [ho] at happ
      cases happ
    | closed t rest o =>
      rw [ho] at happ
      injection happ with _ _ hout
      rw [hout, List.length_append]
      omega

/-- What stands behind a whole body is left. -/
theorem runBody_behind {body decoded : Bytes} (hrun : runBody body = .closed true [] decoded)
    (behind : Bytes) : runBody (body ++ behind) = .closed true behind decoded := by
  have happ := Machine.run_append (M := chunked true) Machine.ofNext_isResumable (.size false 0) body behind
  unfold runBody at hrun ⊢
  rw [happ, hrun]
  rfl

/-! ## One decode of the buffer's tail -/

theorem resizeBytes_append (a b : Bytes) {k : Nat} (hk : k ≤ b.length) :
    resizeBytes (a ++ b) (a.length + k) = a ++ b.take k := by
  unfold resizeBytes
  rw [List.take_length_add_append, List.length_append,
    show a.length + k - (a.length + b.length) = 0 from by omega, List.replicate_zero, List.append_nil]

theorem processRequest_state {s : RequestSlot} (pre body rest : Bytes) (n : Nat) (isChunked : Bool)
    (hbuf : s.recvBuffer = pre ++ (body ++ rest))
    (hbody : s.bodyState = some ⟨body.length, n, pre.length, isChunked⟩) :
    (processRequest s).state = .ended (.answered s.parsedHeaders body) := by
  unfold processRequest
  rw [hbody, hbuf]
  dsimp only
  rw [if_pos, Int.toNat_natCast]
  · unfold slice
    rw [List.drop_left, Nat.add_sub_cancel_left, List.take_left]
  · rw [List.length_append, List.length_append]
    omega

section Tail

variable {c : RequestLimits} {s : RequestSlot} {pre part out buf out' : Bytes} {n : Int}

theorem drop_tail (hbuf : s.recvBuffer = pre ++ (out ++ buf)) :
    s.recvBuffer.take (pre.length + out.length) = pre ++ out ∧
      s.recvBuffer.drop (pre.length + out.length) = buf := by
  rw [hbuf, ← List.append_assoc, ← List.length_append]
  exact ⟨List.take_left, List.drop_left⟩

/-- The guard fires: refused 400. -/
theorem decodeChunkedTail_fires (hbuf : s.recvBuffer = pre ++ (out ++ buf))
    (hfires : s.chunkDecoder.guardFires buf = true) :
    (decodeChunkedTail c s ⟨n, out.length, pre.length, true⟩).state = .ended .badRequest := by
  have hret : (s.chunkDecoder.decode buf).ret = -1 := by
    unfold HTTPChunkedDecoder.guardFires at hfires
    unfold HTTPChunkedDecoder.decode
    dsimp only
    rw [if_pos (by simpa using hfires)]
  unfold decodeChunkedTail
  dsimp only
  rw [(drop_tail hbuf).2, if_pos hret]

/-- What the tail was decoded to passes a bound: refused 413. -/
theorem decodeChunkedTail_over (hbuf : s.recvBuffer = pre ++ (out ++ buf))
    (hret : (s.chunkDecoder.decode buf).ret ≠ -1)
    (hover : ((out.length + (s.chunkDecoder.decode buf).size : Nat) : Int) > c.maxRequestBodySize ∨
      (s.chunkDecoder.decode buf).decoder.totalRead > c.rawLimit) :
    (decodeChunkedTail c s ⟨n, out.length, pre.length, true⟩).state = .ended .tooLarge := by
  unfold decodeChunkedTail
  dsimp only
  rw [(drop_tail hbuf).2, if_neg hret, if_pos hover]

/-- More of the body is owed: the framing's bytes are dropped, the decoded ones kept. -/
theorem decodeChunkedTail_waits (hbuf : s.recvBuffer = pre ++ (out ++ buf))
    (htakes : TakesAll part out buf out' (s.chunkDecoder.decode buf))
    (hin : ¬ ((out'.length : Int) > c.maxRequestBodySize ∨
      ((part ++ buf).length : Int) > c.rawLimit)) :
    decodeChunkedTail c s ⟨n, out.length, pre.length, true⟩ =
      { s with
        recvBuffer := pre ++ out'
        bodyState := some ⟨n, out'.length, pre.length, true⟩
        chunkDecoder := (s.chunkDecoder.decode buf).decoder } := by
  obtain ⟨htake, hdrop⟩ := drop_tail hbuf
  unfold decodeChunkedTail
  dsimp only
  rw [hdrop, htake]
  generalize s.chunkDecoder.decode buf = r at htakes ⊢
  have hsize : r.size ≤ r.buf.length := by
    have h1 := congrArg List.length htakes.decoded
    have h2 := htakes.size
    rw [List.length_append, List.length_take] at h1
    omega
  rw [htakes.ret, if_neg (by decide), htakes.pendingBytes, ← htakes.size,
    htakes.decoder.totalRead, if_neg hin, if_neg (by decide), Nat.add_zero, ← List.length_append,
    resizeBytes_append _ _ hsize, List.append_assoc, ← htakes.decoded]

/-- The body is whole: answered with its decoded bytes, what is behind it kept. -/
theorem decodeChunkedTail_completes {rest : Bytes} (hbuf : s.recvBuffer = pre ++ (out ++ buf))
    (htakes : TakesEnd part out buf rest out' (s.chunkDecoder.decode buf))
    (hin : ¬ ((out'.length : Int) > c.maxRequestBodySize ∨
      (s.chunkDecoder.decode buf).decoder.totalRead > c.rawLimit)) :
    (decodeChunkedTail c s ⟨n, out.length, pre.length, true⟩).state
      = .ended (.answered s.parsedHeaders out') := by
  obtain ⟨htake, hdrop⟩ := drop_tail hbuf
  unfold decodeChunkedTail
  dsimp only
  rw [hdrop, htake]
  generalize s.chunkDecoder.decode buf = r at htakes hin ⊢
  have hret := htakes.ret
  rw [if_neg (by omega), ← htakes.size, if_neg hin, if_pos (by omega)]
  refine processRequest_state pre out' rest out'.length false ?_ rfl
  have hsize : r.size + r.decoder.pendingBytes ≤ r.buf.length := by
    have h1 := congrArg List.length htakes.decoded
    have h2 := congrArg List.length htakes.leftover
    have h3 := htakes.size
    have h4 := htakes.pendingBytes
    unfold slice at h2
    rw [List.length_append, List.length_take] at h1
    rw [List.length_take, List.length_drop] at h2
    omega
  have hsplit : r.buf.take (r.size + r.decoder.pendingBytes) = r.buf.take r.size ++ rest := by
    rw [← htakes.leftover]
    unfold slice
    rw [List.take_add, Nat.add_sub_cancel_left]
  rw [Nat.add_assoc, ← List.length_append, resizeBytes_append _ _ hsize, hsplit, htakes.decoded]
  simp only [List.append_assoc]

end Tail

/-! ## One request -/

/-- A request the framing accepts: `head` up to its CR LF CR LF, `body` as the head frames it,
`decoded` what the body says. -/
structure RequestText (w : IndexWords) (c : RequestLimits) (p : ParsedRequestHeaders)
    (head body decoded : Bytes) : Prop where
  headEnd : headEnd head = some head.length
  parsed : parseRequestHeaders w head = .ok p
  headSize : (head.length : Int) ≤ c.maxTotalHeaderSize
  uriLength : (p.path.length : Int) ≤ c.maxRequestUriLength
  chunked : p.isChunkedBody = true → ChunkedText extByte valueByte body decoded []
  plain : p.isChunkedBody = false → body.length = p.contentLength.toNat ∧ decoded = body

/-- Within the cap, and a chunked body's raw bytes within twice it. -/
def WithinBounds (c : RequestLimits) (p : ParsedRequestHeaders) (body decoded : Bytes) : Prop :=
  (decoded.length : Int) ≤ c.maxRequestBodySize ∧
    (p.isChunkedBody = true → (body.length : Int) ≤ 2 * c.maxRequestBodySize)

/-- The sums the limits enter fit an `Int`. -/
structure RequestLimits.Fits (c : RequestLimits) : Prop where
  cap : 0 ≤ c.maxRequestBodySize
  double : 2 * c.maxRequestBodySize ≤ intMax
  allowance : c.maxTotalHeaderSize + c.maxRequestBodySize ≤ intMax

theorem RequestLimits.Fits.rawLimit {c : RequestLimits} (hc : c.Fits) :
    c.rawLimit = 2 * c.maxRequestBodySize := by
  have h1 := hc.cap
  exact wrapInt_of_le (by omega) hc.double

/-- The buffer's ceiling leaves room for every head within the header limit. -/
theorem RequestLimits.Fits.le_recvBufferLimit {c : RequestLimits} (hc : c.Fits)
    (hheader : 0 ≤ c.maxTotalHeaderSize) : c.maxTotalHeaderSize ≤ c.recvBufferLimit := by
  have h1 := hc.cap
  unfold RequestLimits.recvBufferLimit
  rw [wrapInt_of_le (by omega) hc.allowance]
  dsimp only
  split <;> omega

/-- A read boundary inside a chunked body at which the decoder's overhead guard fires: of the
bytes so far at least 100 KB are framing, and data is less than a quarter. -/
def GuardAt (p : ParsedRequestHeaders) (head body got : Bytes) : Prop :=
  p.isChunkedBody = true ∧ head.length < got.length ∧ got.length < head.length + body.length ∧
    (HTTPChunkedDecoder.fresh true).guardFires (got.drop head.length) = true

section Request

variable (w : IndexWords) (c : RequestLimits) (p : ParsedRequestHeaders) (head body decoded : Bytes)

/-- The head is still arriving, or has just arrived and is not framed: `got` is what came. -/
structure TakingHead (got : Bytes) (s : RequestSlot) : Prop where
  state : s.state = .readingHeaders
  buffer : ∃ front, s.recvBuffer = front ++ got ∧ s.headStart = front.length
  parseLen : s.lastParseLen ≤ got.length
  unfinished : Unfinished (got.take s.lastParseLen)
  parsedHeaders : s.parsedHeaders = none
  bodyState : s.bodyState = none
  chunkDecoder : s.chunkDecoder = .fresh true

/-- `part` of a body with a Content-Length has arrived. -/
structure TakingLength (part : Bytes) (s : RequestSlot) : Prop where
  state : s.state = .readingBody
  parsedHeaders : s.parsedHeaders = some p
  buffer : ∃ pre, s.recvBuffer = pre ++ part ∧
    s.bodyState = some ⟨p.contentLength, part.length, pre.length, false⟩

/-- `part` of a chunked body has arrived. -/
structure TakingChunked (part : Bytes) (s : RequestSlot) : Prop where
  state : s.state = .readingBody
  parsedHeaders : s.parsedHeaders = some p
  buffer : ∃ pre out, s.recvBuffer = pre ++ out ∧ DecoderAt part out s.chunkDecoder ∧
    s.bodyState = some ⟨c.maxRequestBodySize, out.length, pre.length, true⟩

/-- The slot stands where `got`, a proper part of the request, leaves it. -/
inductive Stands (got : Bytes) (s : RequestSlot) : Prop where
  | head (hlt : got.length < head.length) (h : TakingHead got s)
  | length {part : Bytes} (hkind : p.isChunkedBody = false)
      (hcap : p.contentLength ≤ c.maxRequestBodySize) (hgot : got = head ++ part)
      (hlt : part.length < body.length) (h : TakingLength p part s)
  | chunked {part : Bytes} (hkind : p.isChunkedBody = true) (hgot : got = head ++ part)
      (hlt : part.length < body.length) (h : TakingChunked c p part s)

/-- What the slot comes to with `got` of the request. -/
inductive Reaches (got : Bytes) (s : RequestSlot) : Prop where
  | stands (h : Stands c p head body got s) (hguard : ¬ GuardAt p head body got)
  | fires (h : s.state = .ended .badRequest) (hguard : GuardAt p head body got)
  | tooLarge (h : s.state = .ended .tooLarge) (hover : ¬ WithinBounds c p body decoded)
  | answered (h : s.state = .ended (.answered (some p) decoded))
      (hin : WithinBounds c p body decoded) (hwhole : head.length + body.length ≤ got.length)

/-- How a run ends; `met` says that the guard fired at one of its boundaries. -/
inductive Ends (met : Prop) (s : RequestSlot) : Prop where
  | fires (h : s.state = .ended .badRequest) (hmet : met)
  | tooLarge (h : s.state = .ended .tooLarge) (hover : ¬ WithinBounds c p body decoded)
  | answered (h : s.state = .ended (.answered (some p) decoded))
      (hin : WithinBounds c p body decoded) (hmet : ¬ met)

variable {w c p head body decoded}

theorem exists_append_of_append_eq {a b x y : Bytes} (h : a ++ x = b ++ y)
    (hle : b.length ≤ a.length) : ∃ rest, a = b ++ rest := by
  obtain ⟨rest, hrest⟩ := List.prefix_of_prefix_length_le (List.prefix_append b y)
    (h ▸ List.prefix_append a x) hle
  exact ⟨rest, hrest.symm⟩

/-- A part of the request that is longer than its head holds the head. -/
theorem head_of_length_le {got more behind : Bytes} (hle : head.length ≤ got.length)
    (htotal : got ++ more = head ++ body ++ behind) :
    ∃ part, got = head ++ part ∧ part ++ more = body ++ behind := by
  rw [List.append_assoc] at htotal
  obtain ⟨part, hpart⟩ := exists_append_of_append_eq htotal hle
  refine ⟨part, hpart, ?_⟩
  rw [hpart, List.append_assoc] at htotal
  exact List.append_cancel_left htotal

/-- A chunked body, `buf` behind `part`, decoded by the slot's decoder. -/
theorem tail_reaches (hc : c.Fits) (htext : RequestText w c p head body decoded)
    (hkind : p.isChunkedBody = true) {s : RequestSlot} (pre out part buf : Bytes)
    {more behind : Bytes} (hstate : s.state = .readingBody) (hparsed : s.parsedHeaders = some p)
    (hbuf : s.recvBuffer = pre ++ (out ++ buf)) (hd : DecoderAt part out s.chunkDecoder)
    (hne : part ++ buf ≠ []) (htotal : part ++ buf ++ more = body ++ behind) :
    Reaches c p head body decoded (head ++ (part ++ buf))
      (decodeChunkedTail c s ⟨c.maxRequestBodySize, out.length, pre.length, true⟩) := by
  have hrun : runBody body = .closed true [] decoded :=
    (run_eq_closed_iff [] (.size false 0) body decoded).mpr
      ((inBody_iff_lang []).mp (htext.chunked hkind))
  have hpos : 0 < (part ++ buf).length := List.length_pos_iff.mpr hne
  have hgot : (head ++ (part ++ buf)).length = head.length + (part ++ buf).length :=
    List.length_append
  have hraw := hc.rawLimit
  rcases Nat.lt_or_ge (part ++ buf).length body.length with hlt | hge
  · -- inside the body: its decoded part and its raw part are parts of the whole's
    obtain ⟨rest, hbody⟩ := exists_append_of_append_eq htotal.symm hlt.le
    have hrest : rest ≠ [] := by
      rintro rfl
      rw [List.append_nil] at hbody
      rw [hbody] at hlt
      exact absurd hlt (lt_irrefl _)
    rw [hbody] at hrun
    obtain ⟨q, out', hpart, hout⟩ := runBody_part hrest hrun
    have hguard := hd.guardFires hpart
    by_cases hfires : s.chunkDecoder.guardFires buf = true
    · refine .fires (decodeChunkedTail_fires hbuf hfires) ⟨hkind, by omega, by omega, ?_⟩
      rw [List.drop_left, ← hguard]
      exact hfires
    · have hcore := HTTPChunkedDecoder.decode_of_not_guardFires (Bool.not_eq_true _ ▸ hfires)
      have htakes := hd.takesAll hpart
      rw [← hcore] at htakes
      by_cases hover : (out'.length : Int) > c.maxRequestBodySize ∨
          ((part ++ buf).length : Int) > c.rawLimit
      · refine .tooLarge (decodeChunkedTail_over hbuf (by rw [htakes.ret]; decide) ?_) ?_
        · rw [← htakes.size, htakes.decoder.totalRead]
          exact hover
        · intro hin
          have h1 := hin.1
          have h2 := hin.2 hkind
          omega
      · refine .stands (.chunked hkind rfl hlt ?_) (fun hg => hfires ?_)
        · rw [decodeChunkedTail_waits hbuf htakes hover]
          exact ⟨hstate, hparsed, pre, out', rfl, htakes.decoder, rfl⟩
        · have h4 := hg.2.2.2
          rw [List.drop_left, ← hguard] at h4
          exact h4
  · -- the body is whole, `rest` is behind it
    obtain ⟨rest, hbody⟩ := exists_append_of_append_eq htotal hge
    have hclosed := runBody_behind hrun rest
    rw [← hbody] at hclosed
    have htakes := hd.takesEnd hclosed
    have hret := htakes.ret
    have hcore : s.chunkDecoder.decode buf = s.chunkDecoder.decodeCore buf :=
      HTTPChunkedDecoder.decode_of_ret (by omega)
    rw [← hcore] at htakes hret
    have hread := htakes.totalRead
    have hlen : (part ++ buf).length = body.length + rest.length := by
      rw [hbody, List.length_append]
    by_cases hover : (decoded.length : Int) > c.maxRequestBodySize ∨
        (s.chunkDecoder.decode buf).decoder.totalRead > c.rawLimit
    · refine .tooLarge (decodeChunkedTail_over hbuf (by omega) ?_) ?_
      · rw [← htakes.size]
        exact hover
      · intro hin
        have h1 := hin.1
        have h2 := hin.2 hkind
        omega
    · refine .answered ?_ ⟨by omega, fun _ => by omega⟩ (by omega)
      rw [decodeChunkedTail_completes hbuf htakes hover, hparsed]

/-! ### The head -/

/-- Where the head's parser stops, and that no bare LF is in the head. -/
theorem RequestText.parse_ends (htext : RequestText w c p head body decoded) :
    p.bytesConsumed = head.length ∧ NoBareLf head := by
  have hp := htext.parsed
  rw [← List.take_length (l := head)] at hp
  obtain ⟨h1, -, h3⟩ := parse_ends_at_headEnd htext.headEnd hp
  rw [List.take_length] at h3
  exact ⟨h1, h3⟩

/-- A part of the head is unfinished. -/
theorem RequestText.unfinished (htext : RequestText w c p head body decoded) {got more : Bytes}
    (hhead : got ++ more = head) (hlt : got.length < head.length) : Unfinished got := by
  obtain ⟨-, hlf⟩ := htext.parse_ends
  refine ⟨?_, NoBareLf.of_append_left (b := more) (by rw [hhead]; exact hlf)⟩
  obtain ⟨k, hk, hat, hmin⟩ := headEnd_eq_some.mp htext.headEnd
  rw [headEnd_eq_none]
  intro j
  cases hj : emptyLineAt got j with
  | false => rfl
  | true =>
    have hlen := emptyLineAt_lt hj
    have hwhole := emptyLineAt_append_left (b := more) hlen
    rw [hhead, hmin j (by omega), hj] at hwhole
    cases hwhole

/-- **The framing of a whole head**, whatever came with it. -/
theorem RequestText.framed (htext : RequestText w c p head body decoded) {part : Bytes} {n : Nat}
    (hn : Unfinished ((head ++ part).take n)) :
    frameRequestHead w c.head (head ++ part) n none =
      if !p.isChunkedBody ∧ p.contentLength > c.maxRequestBodySize then
        (.refused .bodyTooLarge, none)
      else (.request head.length p.isChunkedBody p.contentLength, some p) := by
  obtain ⟨hconsumed, -⟩ := htext.parse_ends
  have h1 : ¬ ((head.length : Int) > c.head.maxHeaderSize) := not_lt.mpr htext.headSize
  have h2 : ¬ ((p.path.length : Int) > c.head.maxUriLength) := not_lt.mpr htext.uriLength
  rw [frameRequestHead_resume w c.head hn,
    frameRequestHead_of_headEnd w c.head (headEnd_append htext.headEnd part), List.take_left]
  unfold decideHead
  rw [if_neg h1, htext.parsed]
  dsimp only
  rw [if_neg (not_not.mpr hconsumed), if_neg h2]
  rfl

/-- A chunked body has a byte. -/
theorem RequestText.body_pos (htext : RequestText w c p head body decoded)
    (hkind : p.isChunkedBody = true) : 0 < body.length := by
  refine List.length_pos_iff.mpr ?_
  rintro rfl
  exact lang_nil [] _ _ ((inBody_iff_lang []).mp (htext.chunked hkind))

/-- A Content-Length within the cap is within the bounds. -/
theorem RequestText.within_plain (hc : c.Fits) (htext : RequestText w c p head body decoded)
    (hkind : p.isChunkedBody = false) (hcap : p.contentLength ≤ c.maxRequestBodySize) :
    WithinBounds c p body decoded := by
  obtain ⟨hbodyLen, hdecoded⟩ := htext.plain hkind
  have h0 := hc.cap
  refine ⟨?_, fun h => ?_⟩
  · rw [hdecoded]
    omega
  · rw [hkind] at h
    cases h

theorem not_guardAt_plain (hkind : p.isChunkedBody = false) (head body got : Bytes) :
    ¬ GuardAt p head body got := by
  intro hg
  have h1 := hg.1
  rw [hkind] at h1
  cases h1

/-! The three answers to a framed request. -/

theorem request_length (headEnd : Nat) {n : Int} (hn : n > 0) :
    HeadFraming.request headEnd false n = ⟨.request, .none, headEnd, .length, n, headEnd + n⟩ := by
  unfold HeadFraming.request
  rw [if_neg (by decide), if_pos hn]

theorem request_none (headEnd : Nat) {n : Int} (hn : ¬ n > 0) :
    HeadFraming.request headEnd false n = ⟨.request, .none, headEnd, .none, n, headEnd + n⟩ := by
  unfold HeadFraming.request
  rw [if_neg (by decide), if_neg hn]

theorem request_chunked (headEnd : Nat) (n : Int) :
    HeadFraming.request headEnd true n = ⟨.request, .none, headEnd, .chunked, n, 0⟩ := rfl

/-- The framing's decision acted on. -/
theorem frameBuffered_reaches (hc : c.Fits) (htext : RequestText w c p head body decoded)
    {got more behind : Bytes} {s : RequestSlot} (hs : TakingHead got s)
    (htotal : got ++ more = head ++ body ++ behind) :
    Reaches c p head body decoded got (frameBuffered w c s) := by
  obtain ⟨front, hbuf, hstart⟩ := hs.buffer
  have hdrop : s.recvBuffer.drop s.headStart = got := by rw [hbuf, hstart, List.drop_left]
  rcases Nat.lt_or_ge got.length head.length with hlt | hge
  · -- the head is still arriving
    rw [List.append_assoc] at htotal
    obtain ⟨rest, hrest⟩ := exists_append_of_append_eq htotal.symm hlt.le
    have hun := htext.unfinished hrest.symm hlt
    have hpending : s.pendingLen = got.length := by
      unfold RequestSlot.pendingLen
      rw [hbuf, hstart, List.length_append, Nat.add_sub_cancel_left]
    have hlimit := hc.le_recvBufferLimit (by have := htext.headSize; omega)
    have hheader := htext.headSize
    unfold frameBuffered
    dsimp only
    rw [hdrop, hs.parsedHeaders, frameRequestHead_of_unfinished w c.head hun]
    simp only [HeadFraming.incomplete]
    rw [show RequestSlot.pendingLen { s with parsedHeaders := none } = got.length from hpending,
      if_neg (by omega)]
    refine .stands (.head hlt ⟨hs.state, ⟨front, hbuf, hstart⟩, le_rfl, ?_, rfl, hs.bodyState,
      hs.chunkDecoder⟩) (fun hg => absurd hg.2.1 (by omega))
    rw [List.take_length]
    exact hun
  · -- the head is whole, `part` came with it
    obtain ⟨part, rfl, hpart⟩ := head_of_length_le hge htotal
    have hlen := congrArg List.length hpart
    rw [List.length_append, List.length_append] at hlen
    have hbuffer : s.recvBuffer = front ++ head ++ part := by rw [hbuf, List.append_assoc]
    have hinBuffer : s.recvBuffer.length - (s.headStart + head.length) = part.length := by
      rw [hbuffer, hstart, List.length_append, List.length_append, Nat.add_sub_cancel_left]
    have hoffset : s.headStart + head.length = (front ++ head).length := by
      rw [hstart, List.length_append]
    unfold frameBuffered
    dsimp only
    rw [hdrop, hs.parsedHeaders, htext.framed hs.unfinished]
    cases hkind : p.isChunkedBody with
    | true =>
      rw [if_neg (by simp)]
      simp only [request_chunked, hinBuffer]
      rw [if_pos (by decide)]
      have hfresh : DecoderAt [] [] s.chunkDecoder := by
        rw [hs.chunkDecoder]
        exact decoderAt_fresh
      by_cases hnone : part = []
      · -- nothing of the body yet
        subst hnone
        rw [if_neg (by simp), if_neg (by simp)]
        refine .stands (.chunked hkind rfl (htext.body_pos hkind) ⟨rfl, rfl, front ++ head, [], ?_, ?_, ?_⟩)
          (fun hg => absurd hg.2.1 (by rw [List.append_nil]; exact lt_irrefl _))
        · exact hbuffer
        · exact hfresh
        · dsimp only
          rw [hoffset]
          rfl
      · have hpos := List.length_pos_iff.mpr hnone
        rw [if_pos (by simpa using hpos), hoffset]
        exact tail_reaches hc htext hkind (front ++ head) [] [] part rfl rfl hbuffer hfresh hnone hpart
    | false =>
      obtain ⟨hbodyLen, hdecoded⟩ := htext.plain hkind
      have hcap := hc.cap
      by_cases hover : p.contentLength > c.maxRequestBodySize
      · rw [if_pos ⟨by simp, hover⟩]
        refine .tooLarge rfl (fun hin => ?_)
        have h1 := hin.1
        rw [hdecoded] at h1
        omega
      · have hin := htext.within_plain hc hkind (not_lt.mp hover)
        rw [if_neg (fun h => hover h.2)]
        have hnoGuard := not_guardAt_plain hkind head body (head ++ part)
        by_cases hzero : p.contentLength > 0
        · simp only [request_length _ hzero, hinBuffer]
          rw [if_pos (by decide), if_neg (by simp)]
          by_cases hwhole : (part.length : Int) ≥ p.contentLength
          · -- the body came with its head
            obtain ⟨rest, hrest⟩ := exists_append_of_append_eq hpart (by omega)
            have hn : p.contentLength = body.length := by omega
            rw [if_pos ⟨by decide, hwhole⟩]
            refine .answered ?_ hin (by rw [List.length_append]; omega)
            rw [hdecoded]
            refine processRequest_state (front ++ head) body rest part.length false ?_ ?_
            · dsimp only
              rw [hbuffer, hrest]
            · dsimp only
              rw [hoffset, ← hn]
              rfl
          · rw [if_neg (fun h => hwhole h.2)]
            refine .stands (.length hkind (not_lt.mp hover) rfl (by omega)
              ⟨rfl, rfl, front ++ head, hbuffer, ?_⟩) hnoGuard
            dsimp only
            rw [hoffset]
            rfl
        · simp only [request_none _ hzero, hinBuffer]
          rw [if_neg (by decide)]
          have hnil : body = [] := List.eq_nil_of_length_eq_zero (by omega)
          refine .answered ?_ hin (by rw [List.length_append]; omega)
          rw [hdecoded, hnil]
          unfold processRequest
          dsimp only
          rw [hs.bodyState]

/-! ### A read after the head -/

theorem readBody_length (hc : c.Fits) (htext : RequestText w c p head body decoded)
    (hkind : p.isChunkedBody = false) (hcap : p.contentLength ≤ c.maxRequestBodySize)
    {part bytes more behind : Bytes} {s : RequestSlot} (hs : TakingLength p part s)
    (hlt : part.length < body.length) (htotal : part ++ bytes ++ more = body ++ behind) :
    Reaches c p head body decoded (head ++ (part ++ bytes)) (readBody c s bytes) := by
  obtain ⟨pre, hbuf, hbody⟩ := hs.buffer
  obtain ⟨hbodyLen, hdecoded⟩ := htext.plain hkind
  have hbuffer : s.recvBuffer ++ bytes = pre ++ (part ++ bytes) := by rw [hbuf, List.append_assoc]
  unfold readBody
  rw [hbody]
  simp only [Bool.false_eq_true, if_false]
  rw [← List.length_append]
  by_cases hwhole : ((part ++ bytes).length : Int) ≥ p.contentLength
  · obtain ⟨rest, hrest⟩ := exists_append_of_append_eq htotal (by omega)
    have hlen : (part ++ bytes).length = body.length + rest.length := by
      rw [hrest, List.length_append]
    rw [if_pos hwhole]
    refine .answered ?_ (htext.within_plain hc hkind hcap) (by rw [List.length_append]; omega)
    rw [hdecoded, ← hs.parsedHeaders]
    have hn : p.contentLength = body.length := by omega
    refine processRequest_state pre body rest (part ++ bytes).length false ?_ ?_
    · dsimp only
      rw [hbuffer, hrest]
    · dsimp only
      rw [← hn]
  · rw [if_neg hwhole]
    exact .stands (.length hkind hcap rfl (by omega) ⟨hs.state, hs.parsedHeaders, pre, hbuffer, rfl⟩)
      (not_guardAt_plain hkind head body _)

theorem readBody_chunked (hc : c.Fits) (htext : RequestText w c p head body decoded)
    (hkind : p.isChunkedBody = true) {part bytes more behind : Bytes} {s : RequestSlot}
    (hs : TakingChunked c p part s) (hne : bytes ≠ [])
    (htotal : part ++ bytes ++ more = body ++ behind) :
    Reaches c p head body decoded (head ++ (part ++ bytes)) (readBody c s bytes) := by
  obtain ⟨pre, out, hbuf, hd, hbody⟩ := hs.buffer
  have hpos := List.length_pos_iff.mpr hne
  have hbuffer : s.recvBuffer ++ bytes = pre ++ (out ++ bytes) := by rw [hbuf, List.append_assoc]
  have hmore : (s.recvBuffer ++ bytes).length > pre.length + out.length := by
    rw [hbuffer, List.length_append, List.length_append]
    omega
  unfold readBody
  rw [hbody]
  simp only [if_true]
  rw [if_pos hmore]
  refine tail_reaches hc htext hkind pre out part bytes hs.state hs.parsedHeaders hbuffer hd ?_ htotal
  exact fun h => hne (List.append_eq_nil_iff.mp h).2

/-! ### A run -/

theorem onRead_reaches (hc : c.Fits) (htext : RequestText w c p head body decoded)
    {got bytes more behind : Bytes} {s : RequestSlot} (hs : Stands c p head body got s)
    (hne : bytes ≠ []) (htotal : got ++ bytes ++ more = head ++ body ++ behind) :
    Reaches c p head body decoded (got ++ bytes) (onRead w c s bytes) := by
  have hbehind : ∀ {part : Bytes}, got = head ++ part →
      part ++ bytes ++ more = body ++ behind := by
    rintro part rfl
    simp only [List.append_assoc] at htotal ⊢
    exact List.append_cancel_left htotal
  unfold onRead
  cases hs with
  | head hlt h =>
    obtain ⟨front, hbuf, hstart⟩ := h.buffer
    rw [h.state]
    dsimp only
    unfold handleReadHeaders
    refine frameBuffered_reaches hc htext ⟨h.state, ⟨[], ?_, rfl⟩, ?_, ?_, h.parsedHeaders,
      h.bodyState, h.chunkDecoder⟩ htotal
    · show s.recvBuffer.drop s.headStart ++ bytes = [] ++ (got ++ bytes)
      rw [hbuf, hstart, List.drop_left, List.nil_append]
    · show s.lastParseLen ≤ (got ++ bytes).length
      rw [List.length_append]
      exact Nat.le_add_right_of_le h.parseLen
    · show Unfinished ((got ++ bytes).take s.lastParseLen)
      rw [List.take_append_of_le_length h.parseLen]
      exact h.unfinished
  | length hkind hcap hgot hlt h =>
    rw [h.state]
    have hreach := readBody_length hc htext hkind hcap h hlt (hbehind hgot)
    rw [← List.append_assoc, ← hgot] at hreach
    exact hreach
  | chunked hkind hgot hlt h =>
    rw [h.state]
    have hreach := readBody_chunked hc htext hkind h hne (hbehind hgot)
    rw [← List.append_assoc, ← hgot] at hreach
    exact hreach

theorem readAll_ended {s : RequestSlot} {result : RequestEnd} (hs : s.state = .ended result)
    (reads : List Bytes) : readAll w c s reads = s := by
  induction reads with
  | nil => rfl
  | cons bytes reads ih =>
    have hread : onRead w c s bytes = s := by
      unfold onRead
      rw [hs]
    unfold readAll at ih ⊢
    rw [List.foldl_cons, hread, ih]

/-- The guard fires at one of the run's read boundaries. -/
def GuardMet (p : ParsedRequestHeaders) (head body got : Bytes) (reads : List Bytes) : Prop :=
  ∃ k ≤ reads.length, GuardAt p head body (got ++ (reads.take k).flatten)

theorem guardMet_cons {got bytes : Bytes} {reads : List Bytes} :
    GuardMet p head body got (bytes :: reads) ↔
      GuardAt p head body got ∨ GuardMet p head body (got ++ bytes) reads := by
  refine ⟨?_, ?_⟩
  · rintro ⟨k, hk, hg⟩
    cases k with
    | zero => exact Or.inl (by simpa using hg)
    | succ k =>
      refine Or.inr ⟨k, by simpa using hk, ?_⟩
      rwa [List.take_succ_cons, List.flatten_cons, ← List.append_assoc] at hg
  · rintro (hg | ⟨k, hk, hg⟩)
    · exact ⟨0, Nat.zero_le _, by simpa using hg⟩
    · refine ⟨k + 1, by simpa using hk, ?_⟩
      rwa [List.take_succ_cons, List.flatten_cons, ← List.append_assoc]

/-- Behind the whole body there is no boundary inside it. -/
theorem not_guardMet_of_whole {got : Bytes} (hwhole : head.length + body.length ≤ got.length)
    (reads : List Bytes) : ¬ GuardMet p head body got reads := by
  rintro ⟨k, -, -, -, hlt, -⟩
  rw [List.length_append] at hlt
  omega

/-- **Every run over the whole request ends**, by its bounds unless the guard is met. -/
theorem readAll_ends (hc : c.Fits) (htext : RequestText w c p head body decoded)
    {got behind : Bytes} {reads : List Bytes} {s : RequestSlot}
    (hs : Reaches c p head body decoded got s) (hne : [] ∉ reads)
    (htotal : got ++ reads.flatten = head ++ body ++ behind) :
    Ends c p body decoded (GuardMet p head body got reads) (readAll w c s reads) := by
  induction reads generalizing got s with
  | nil =>
    have hlen := congrArg List.length htotal
    simp only [List.flatten_nil, List.append_nil, List.length_append] at hlen
    cases hs with
    | stands h _ =>
      cases h with
      | head hlt _ => omega
      | length _ _ hgot hlt _ =>
        rw [hgot, List.length_append] at hlen
        omega
      | chunked _ hgot hlt _ =>
        rw [hgot, List.length_append] at hlen
        omega
    | fires h hg => exact .fires h ⟨0, le_rfl, by simpa using hg⟩
    | tooLarge h hover => exact .tooLarge h hover
    | answered h hin hwhole => exact .answered h hin (not_guardMet_of_whole hwhole [])
  | cons bytes reads ih =>
    cases hs with
    | fires h hg =>
      rw [readAll_ended h]
      exact .fires h (guardMet_cons.mpr (Or.inl hg))
    | tooLarge h hover =>
      rw [readAll_ended h]
      exact .tooLarge h hover
    | answered h hin hwhole =>
      rw [readAll_ended h]
      exact .answered h hin (not_guardMet_of_whole hwhole _)
    | stands h hguard =>
      rw [List.flatten_cons, ← List.append_assoc] at htotal
      have hbytes : bytes ≠ [] := fun hnil => hne (hnil ▸ List.mem_cons_self)
      have hstep := onRead_reaches hc htext h hbytes htotal
      have hrest := ih hstep (fun hmem => hne (List.mem_cons_of_mem _ hmem)) htotal
      have hmet : GuardMet p head body got (bytes :: reads) ↔
          GuardMet p head body (got ++ bytes) reads := by
        rw [guardMet_cons]
        exact ⟨fun h => h.resolve_left hguard, Or.inr⟩
      rw [hmet]
      exact hrest

theorem drainPipelined_reaches (hc : c.Fits) (htext : RequestText w c p head body decoded)
    {front tail more behind : Bytes} (htotal : tail ++ more = head ++ body ++ behind) :
    Reaches c p head body decoded tail (drainPipelined w c (.ready front tail)) := by
  have hready : TakingHead tail (.ready front tail) :=
    ⟨rfl, ⟨front, rfl, rfl⟩, Nat.zero_le _, ⟨rfl, noBareLf_nil⟩, rfl, rfl, rfl⟩
  have hpending : (RequestSlot.ready front tail).pendingLen = tail.length := by
    show (front ++ tail).length - front.length = _
    rw [List.length_append, Nat.add_sub_cancel_left]
  unfold drainPipelined
  by_cases hpos : tail.length > 0
  · rw [if_pos (hpending ▸ hpos)]
    exact frameBuffered_reaches hc htext hready htotal
  · rw [if_neg (hpending ▸ hpos)]
    have hhead : 0 < head.length := by
      obtain ⟨k, hk, -⟩ := headEnd_eq_some.mp htext.headEnd
      omega
    exact .stands (.head (by omega) hready) (fun hg => absurd hg.2.1 (by omega))

end Request

end MojoHttp
