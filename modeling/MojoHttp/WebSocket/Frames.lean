import MojoHttp.Bytes

/-!
# WebSocket frames (`websocket.mojo`, RFC 6455 §5)

The opcodes and close codes, the server's frame encoder, and the two checks a payload goes
through: the unmasking, 64 lanes at a time, and the UTF-8 check with its ASCII skip.
-/

namespace MojoHttp

def WS_OP_CONT : Nat := 0x0
def WS_OP_TEXT : Nat := 0x1
def WS_OP_BINARY : Nat := 0x2
def WS_OP_CLOSE : Nat := 0x8
def WS_OP_PING : Nat := 0x9
def WS_OP_PONG : Nat := 0xA

def WS_CLOSE_PROTOCOL_ERROR : Nat := 1002
def WS_CLOSE_INVALID_DATA : Nat := 1007
def WS_CLOSE_TOO_BIG : Nat := 1009

/-! ## Encoding -/

/-- `UInt8(x)` of a non-negative `Int`. -/
def toByte (x : Nat) : UInt8 := UInt8.ofNat x

/-- `_frame_header`: a FIN frame's header for an `n`-byte payload. -/
def frameHeader (opcode n : Nat) (masked : Bool) : Bytes :=
  let maskBit := if masked then 0x80 else 0
  toByte (0x80 ||| (opcode &&& 0x0F)) ::
    if n ≤ 125 then [toByte (maskBit ||| n)]
    else if n ≤ 0xFFFF then
      [toByte (maskBit ||| 126), toByte ((n >>> 8) &&& 0xFF), toByte (n &&& 0xFF)]
    else
      toByte (maskBit ||| 127) ::
        [56, 48, 40, 32, 24, 16, 8, 0].map fun shift => toByte ((n >>> shift) &&& 0xFF)

def encodeWsFrame (opcode : Nat) (payload : Bytes) : Bytes :=
  frameHeader opcode payload.length false ++ payload

/-- `close_frame`: a close frame carrying a status code, big-endian. -/
def closeFrame (code : Nat) : Bytes :=
  encodeWsFrame WS_OP_CLOSE [toByte ((code >>> 8) &&& 0xFF), toByte (code &&& 0xFF)]

/-! ## Unmasking -/

/-- The 64 lanes of the widened mask: lane `k` holds `mask[k % 4]`. -/
def maskLanes (mask : Bytes) : Bytes := (List.range 64).map fun k => mask.getD (k % 4) 0

/-- `while i + 64 <= n`, then `while i < n`, appending what each writes. -/
def unmaskFrom (masked mask : Bytes) : (fuel i : Nat) → Bytes
  | 0, _ => []
  | fuel + 1, i =>
    if i + 64 ≤ masked.length then
      (slice masked i (i + 64)).zipWith (· ^^^ ·) (maskLanes mask) ++
        unmaskFrom masked mask fuel (i + 64)
    else if i < masked.length then
      (masked.getD i 0 ^^^ mask.getD (i % 4) 0) :: unmaskFrom masked mask fuel (i + 1)
    else []

/-- `unmask_payload`. -/
def unmaskPayload (masked mask : Bytes) : Bytes := unmaskFrom masked mask (masked.length + 1) 0

/-! ## The checks on a close code and on text -/

def closeCodeIsValidFromPeer (code : Nat) : Bool :=
  (code ≥ 1000 && code ≤ 1003) || (code ≥ 1007 && code ≤ 1014) || (code ≥ 3000 && code ≤ 4999)

/-- `while i + 64 <= n`: whole chunks without a high bit. -/
def skipAsciiChunks (data : Bytes) : (fuel i : Nat) → Nat
  | 0, i => i
  | fuel + 1, i =>
    if i + 64 ≤ data.length then
      if (slice data i (i + 64)).any fun b => b &&& 0x80 != 0 then i
      else skipAsciiChunks data fuel (i + 64)
    else i

/-- `while i < n and data[i] < 0x80: i += 1`. -/
def skipAsciiBytes (data : Bytes) : (fuel i : Nat) → Nat
  | 0, i => i
  | fuel + 1, i =>
    if i < data.length ∧ data.getD i 0 < 0x80 then skipAsciiBytes data fuel (i + 1) else i

/-- What a lead byte asks for: how many continuation bytes, and the bounds on the first. -/
def utf8Lead (b0 : UInt8) : Option (Nat × UInt8 × UInt8) :=
  if b0 ≥ 0xC2 ∧ b0 ≤ 0xDF then some (1, 0x80, 0xBF)
  else if b0 = 0xE0 then some (2, 0xA0, 0xBF)
  else if b0 ≥ 0xE1 ∧ b0 ≤ 0xEC then some (2, 0x80, 0xBF)
  else if b0 = 0xED then some (2, 0x80, 0x9F)
  else if b0 ≥ 0xEE ∧ b0 ≤ 0xEF then some (2, 0x80, 0xBF)
  else if b0 = 0xF0 then some (3, 0x90, 0xBF)
  else if b0 ≥ 0xF1 ∧ b0 ≤ 0xF3 then some (3, 0x80, 0xBF)
  else if b0 = 0xF4 then some (3, 0x80, 0x8F)
  else none

/-- `while i < n` of `is_valid_utf8`. -/
def isValidUtf8From (data : Bytes) : (fuel i : Nat) → Bool
  | 0, _ => true
  | fuel + 1, i =>
    if i ≥ data.length then true
    else if data.getD i 0 < 0x80 then
      isValidUtf8From data fuel
        (skipAsciiBytes data data.length (skipAsciiChunks data data.length i))
    else
      match utf8Lead (data.getD i 0) with
      | none => false
      | some (needed, lo, hi) =>
        if i + needed ≥ data.length then false
        else if data.getD (i + 1) 0 < lo ∨ data.getD (i + 1) 0 > hi then false
        else if (List.range' 2 (needed - 1)).any fun j =>
            data.getD (i + j) 0 < 0x80 || data.getD (i + j) 0 > 0xBF then false
        else isValidUtf8From data fuel (i + (needed + 1))

/-- `is_valid_utf8`. -/
def isValidUtf8 (data : Bytes) : Bool := isValidUtf8From data (data.length + 1) 0

end MojoHttp
