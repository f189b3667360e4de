import MojoHttp.Bytes

/-!
# Chunked transfer coding (`http/chunked.mojo`)

The decoder works in place on the caller's buffer: `src` is what it has read, `dst` what it has
written, and the bytes of a chunk are moved down over the framing before them. Between calls it
remembers where in the framing it stands.

* **`HTTPChunkedDecoder.decode`** — one call: `decodeLoop`, then what is left moved down behind
  the decoded bytes, the totals, and the guard on the overhead (`overheadIsExcessive`).
* **`turn`** — one turn of the `while True`, a case per state.
* **`encodeChunk`**, **`chunkedTerminator`** — the encoder.
-/

namespace MojoHttp

open BytesConstant

inductive DecoderState where
  | inChunkSize
  | inChunkExt
  | inChunkHeaderExpectLf
  | inChunkData
  | inChunkDataExpectCr
  | inChunkDataExpectLf
  | inTrailersLineHead
  | inTrailersLineMiddle
  | inTrailersLineName
  | inTrailersLineExpectLf
  | inTrailersEndExpectLf
  | inChunkSizeEnd
  deriving Repr, DecidableEq

structure HTTPChunkedDecoder where
  bytesLeftInChunk : Int
  consumeTrailer : Bool
  hexCount : Nat
  /-- Significant (non-leading-zero) hex digits seen. -/
  sigHexCount : Nat
  state : DecoderState
  /-- Raw body bytes this decoder has consumed, framing included. -/
  totalRead : Int
  totalOverhead : Int
  /-- Undecoded bytes the last call left behind its decoded output. -/
  pendingBytes : Nat
  deriving Repr, DecidableEq

/-- `HTTPChunkedDecoder()`, with `consume_trailer` as the caller sets it. -/
def HTTPChunkedDecoder.fresh (consumeTrailer : Bool) : HTTPChunkedDecoder :=
  ⟨0, consumeTrailer, 0, 0, .inChunkSize, 0, 0, 0⟩

/-- `Int.MAX`. -/
def intMax : Int := 2 ^ 63 - 1

/-- What a 64-bit `Int` keeps of a result. -/
def wrapInt (x : Int) : Int := x.bmod (2 ^ 64)

/-- `decode_hex`; `none` is -1. -/
def decodeHex (ch : UInt8) : Option Nat :=
  if ch ≥ ZERO ∧ ch ≤ NINE then some (ch - ZERO).toNat
  else if ch ≥ A_UPPER ∧ ch ≤ F_UPPER then some (ch - A_UPPER + 10).toNat
  else if ch ≥ A_LOWER ∧ ch ≤ F_LOWER then some (ch - A_LOWER + 10).toNat
  else none

/-- `_shift_down`: `n` bytes from `src` down to `dst`, one after another. -/
def shiftDown : (n : Nat) → (buf : Bytes) → (dst src : Nat) → Bytes
  | 0, buf, _, _ => buf
  | n + 1, buf, dst, src => shiftDown n (buf.set dst (buf.getD src 0)) (dst + 1) (src + 1)

/-! ## The loop -/

/-- What the loop of `decode` works on. -/
structure DecodeLoop where
  decoder : HTTPChunkedDecoder
  buf : Bytes
  src : Nat
  dst : Nat
  deriving Repr, DecidableEq

/-- How a turn ends: round again, `break` with a value of `ret`, or `return (-1, dst)`. -/
inductive Turn where
  | again (l : DecodeLoop)
  | leave (ret : Int) (l : DecodeLoop)
  | refuse (l : DecodeLoop)
  deriving Repr, DecidableEq

namespace DecodeLoop

/-- `buf[src]`. -/
def byte (l : DecodeLoop) : UInt8 := l.buf.getD l.src 0

def ended (l : DecodeLoop) : Bool := l.src ≥ l.buf.length

def setState (l : DecodeLoop) (state : DecoderState) : DecodeLoop :=
  { l with decoder := { l.decoder with state } }

def advance (l : DecodeLoop) : DecodeLoop := { l with src := l.src + 1 }

end DecodeLoop

/-- The bytes that may stand behind a chunk's size. -/
def endsSize (byte : UInt8) : Bool :=
  byte == whitespace || byte == TAB || byte == SEMICOLON || byte == LF || byte == CR

/-- One size digit taken. -/
def takeDigit (l : DecodeLoop) (v : Nat) : DecodeLoop :=
  let left := wrapInt (l.decoder.bytesLeftInChunk * 16 + v)
  { l with
    src := l.src + 1
    decoder := { l.decoder with
      bytesLeftInChunk := left
      hexCount := l.decoder.hexCount + 1
      sigHexCount := if left > 0 then l.decoder.sigHexCount + 1 else l.decoder.sigHexCount } }

/-- `while src < buffer_len` of IN_CHUNK_SIZE; `k` is what is left, an error is
`return (-1, dst)`. -/
def sizeDigits : (k : Nat) → DecodeLoop → Except DecodeLoop DecodeLoop
  | 0, l => .ok l
  | k + 1, l =>
    match decodeHex l.byte with
    | none =>
      if l.decoder.hexCount = 0 then .error l
      else if !endsSize l.byte then .error l
      else .ok l
    | some v =>
      if l.decoder.sigHexCount = 16 then .error l
      else if l.decoder.bytesLeftInChunk > intMax >>> (4 : Nat) then .error l
      else sizeDigits k (takeDigit l v)

/-- `while src < buffer_len and <blank>: src += 1` of IN_CHUNK_SIZE_END. -/
def skipBlanks : (k : Nat) → DecodeLoop → DecodeLoop
  | 0, l => l
  | k + 1, l => if l.byte == whitespace || l.byte == TAB then skipBlanks k l.advance else l

/-- `while src < buffer_len: if <stop>: break; if <bad>: return (-1, dst); src += 1`, the loop
of an extension, a trailer's name and a trailer's value. -/
def scanTo (stop : UInt8) (bad : UInt8 → Bool) : (k : Nat) → DecodeLoop →
    Except DecodeLoop DecodeLoop
  | 0, l => .ok l
  | k + 1, l =>
    if l.byte = stop then .ok l
    else if bad l.byte then .error l
    else scanTo stop bad k l.advance

/-- A byte no extension holds: a control byte other than HTAB, or DEL. -/
def badInExt (b : UInt8) : Bool := (b < 0x20 && b != TAB) || b == 0x7F

/-- A byte no trailer value holds: LF has a test of its own. -/
def badInTrailer (b : UInt8) : Bool := (b < 0x20 && b != TAB && b != LF) || b == 0x7F || b == LF

/-- The turn of a state that scans to `stop` and goes on behind it. -/
def scanTurn (l : DecodeLoop) (stop : UInt8) (bad : UInt8 → Bool) (next : DecoderState) : Turn :=
  match scanTo stop bad (l.buf.length - l.src) l with
  | .error l => .refuse l
  | .ok l => if l.ended then .leave (-2) l else .again (l.advance.setState next)

/-- The turn of a state that expects one byte. -/
def expectTurn (l : DecodeLoop) (want : UInt8) (next : DecodeLoop → Turn) : Turn :=
  if l.ended then .leave (-2) l
  else if l.byte ≠ want then .refuse l
  else next l.advance

/-- The bytes of `n` taken as data: moved down when there is framing before them. -/
def moveData (l : DecodeLoop) (n : Nat) : DecodeLoop :=
  { l with
    buf := if l.dst ≠ l.src then shiftDown n l.buf l.dst l.src else l.buf
    src := l.src + n
    dst := l.dst + n
    decoder := { l.decoder with bytesLeftInChunk := l.decoder.bytesLeftInChunk - n } }

/-- One turn of `while True`. -/
def turn (l : DecodeLoop) : Turn :=
  match l.decoder.state with
  | .inChunkSize =>
    match sizeDigits (l.buf.length - l.src) l with
    | .error l => .refuse l
    | .ok l =>
      if l.ended then .leave (-2) l
      else .again { l with
        decoder := { l.decoder with hexCount := 0, sigHexCount := 0, state := .inChunkSizeEnd } }
  | .inChunkSizeEnd =>
    let l := skipBlanks (l.buf.length - l.src) l
    if l.ended then .leave (-2) l
    else if l.byte = SEMICOLON then .again (l.advance.setState .inChunkExt)
    else if l.byte = CR then .again (l.advance.setState .inChunkHeaderExpectLf)
    else .refuse l
  | .inChunkExt => scanTurn l CR badInExt .inChunkHeaderExpectLf
  | .inChunkHeaderExpectLf =>
    expectTurn l LF fun l =>
      if l.decoder.bytesLeftInChunk = 0 then
        if l.decoder.consumeTrailer then .again (l.setState .inTrailersLineHead)
        else .leave ((l.buf.length : Int) - l.src) l
      else .again (l.setState .inChunkData)
  | .inChunkData =>
    let avail := l.buf.length - l.src
    if (avail : Int) < l.decoder.bytesLeftInChunk then .leave (-2) (moveData l avail)
    else .again ((moveData l l.decoder.bytesLeftInChunk.toNat).setState .inChunkDataExpectCr)
  | .inChunkDataExpectCr => expectTurn l CR fun l => .again (l.setState .inChunkDataExpectLf)
  | .inChunkDataExpectLf => expectTurn l LF fun l => .again (l.setState .inChunkSize)
  | .inTrailersLineHead =>
    if l.ended then .leave (-2) l
    else if l.byte = CR then .again (l.advance.setState .inTrailersEndExpectLf)
    else if !isTokenChar l.byte then .refuse l
    else .again (l.advance.setState .inTrailersLineName)
  | .inTrailersLineName => scanTurn l COLON (fun b => !isTokenChar b) .inTrailersLineMiddle
  | .inTrailersLineMiddle => scanTurn l CR badInTrailer .inTrailersLineExpectLf
  | .inTrailersLineExpectLf => expectTurn l LF fun l => .again (l.setState .inTrailersLineHead)
  | .inTrailersEndExpectLf => expectTurn l LF fun l => .leave ((l.buf.length : Int) - l.src) l

/-- `while True`. `fuel` bounds the turns. -/
def decodeLoop : (fuel : Nat) → DecodeLoop → Turn
  | 0, l => .leave (-2) l
  | fuel + 1, l =>
    match turn l with
    | .again l => decodeLoop fuel l
    | done => done

/-! ## One call -/

/-- What `decode` returns, and what it leaves in the decoder and the buffer. -/
structure Decoded where
  decoder : HTTPChunkedDecoder
  buf : Bytes
  /-- The bytes left after the chunked data, -1 for an error, -2 for incomplete. -/
  ret : Int
  /-- The length of the decoded data. -/
  size : Nat
  deriving Repr, DecidableEq

/-- What follows the loop, up to the guard: what is left moved down, the totals. -/
def finishCall (ret : Int) (l : DecodeLoop) : Decoded where
  decoder := { l.decoder with
    pendingBytes := l.buf.length - l.src
    totalRead := l.decoder.totalRead + l.src
    totalOverhead := l.decoder.totalOverhead + ((l.src : Int) - l.dst) }
  buf :=
    if l.dst ≠ l.src ∧ l.src < l.buf.length then
      shiftDown (l.buf.length - l.src) l.buf l.dst l.src
    else l.buf
  ret := ret
  size := l.dst

namespace HTTPChunkedDecoder

/-- The ratio guard: a body that is mostly framing. -/
def overheadIsExcessive (d : HTTPChunkedDecoder) : Bool :=
  d.totalOverhead ≥ 100 * 1024 && d.totalRead - d.totalOverhead < d.totalRead / 4

/-- A call up to the guard. Each turn takes a byte or leaves IN_CHUNK_SIZE. -/
def decodeCore (d : HTTPChunkedDecoder) (buf : Bytes) : Decoded :=
  match decodeLoop (2 * buf.length + 2) ⟨d, buf, 0, 0⟩ with
  | .again l => ⟨l.decoder, l.buf, -2, l.dst⟩
  | .refuse l => ⟨l.decoder, l.buf, -1, l.dst⟩
  | .leave ret l => finishCall ret l

/-- `decode`. -/
def decode (d : HTTPChunkedDecoder) (buf : Bytes) : Decoded :=
  let r := d.decodeCore buf
  if r.ret = -2 ∧ r.decoder.overheadIsExcessive then { r with ret := -1 } else r

/-- The guard turns this call's answer into an error. -/
def guardFires (d : HTTPChunkedDecoder) (buf : Bytes) : Bool :=
  (d.decodeCore buf).ret = -2 && (d.decodeCore buf).decoder.overheadIsExcessive

end HTTPChunkedDecoder

/-! ## Calls one after another -/

/-- How a body that arrives in pieces ends: complete with its decoded bytes and what is left
over, in need of more with the bytes kept for the next call, or refused. -/
inductive BodyAnswer where
  | complete (decoded leftover : Bytes)
  | needMore (decoded pending : Bytes)
  | error
  deriving Repr, DecidableEq

/-- One decoder fed the pieces in order, its buffer laid out as the loop's is: what was decoded
so far, the pending bytes, the new ones. The bytes behind a complete body are left over, those
not fed yet too. -/
def decodePieces (d : HTTPChunkedDecoder) (decoded pending : Bytes) : List Bytes → BodyAnswer
  | [] => .needMore decoded pending
  | piece :: pieces =>
    let r := d.decode (pending ++ piece)
    let decoded := decoded ++ r.buf.take r.size
    let kept := slice r.buf r.size (r.size + r.decoder.pendingBytes)
    if r.ret = -1 then .error
    else if r.ret = -2 then decodePieces r.decoder decoded kept pieces
    else .complete decoded (kept ++ pieces.flatten)

/-- The guard fires in some call of the run. -/
def guardFiresInPieces (d : HTTPChunkedDecoder) (pending : Bytes) : List Bytes → Bool
  | [] => false
  | piece :: pieces =>
    let r := d.decode (pending ++ piece)
    d.guardFires (pending ++ piece) ||
      (r.ret == -2 && guardFiresInPieces r.decoder
        (slice r.buf r.size (r.size + r.decoder.pendingBytes)) pieces)

/-! ## The encoder -/

/-- `_HEX_DIGITS`. -/
def hexDigits : Bytes := ascii "0123456789abcdef"

/-- `while probe >= 16: probe = probe >> 4; shift += 4`; an `Int` has sixteen nibbles. -/
def topShift : (fuel probe shift : Nat) → Nat
  | 0, _, shift => shift
  | fuel + 1, probe, shift => if probe ≥ 16 then topShift fuel (probe >>> 4) (shift + 4) else shift

/-- `while shift >= 0`: the nibbles from `shift = 4 * (k - 1)` down. -/
def emitNibbles (size : Nat) : (k : Nat) → Bytes
  | 0 => []
  | k + 1 => hexDigits.getD ((size >>> (4 * k)) &&& 0xF) 0 :: emitNibbles size k

/-- `append_chunk_size`: what it appends. -/
def chunkSizeLine (size : Nat) : Bytes :=
  (if size = 0 then [ZERO] else emitNibbles size (topShift 16 size 0 / 4 + 1)) ++ [CR, LF]

def encodeChunk (payload : Bytes) : Bytes :=
  chunkSizeLine payload.length ++ payload ++ [CR, LF]

def chunkedTerminator : Bytes := chunkSizeLine 0 ++ [CR, LF]

end MojoHttp
