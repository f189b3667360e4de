import MojoHttp.WebSocket.Frames

/-!
# The WebSocket frame parser (`websocket.mojo`, `WSState.feed`)

One parser a connection: bytes not parsed yet, and the fragmented message in progress. `feed`
appends what was read, takes the whole frames off the front, and keeps the rest.

* **`readFrame`** — a frame's header, its checks in the source's order, its payload.
* **`takeFrame`** — what a whole frame does to the parser and to the result.
* **`WSState.feed`** — the loop.
-/

namespace MojoHttp

/-- What one `feed` produced. -/
structure WSParseResult where
  msgOpcodes : List Nat := []
  msgPayloads : List Bytes := []
  /-- Encoded frames to send back: pongs, the close echo. -/
  reply : Bytes := []
  closeAfterReply : Bool := false
  /-- The code this close carries; -1 when nothing closed. -/
  closeCode : Int := -1
  deriving Repr, DecidableEq

structure WSState where
  /-- Bytes received but not parsed yet. -/
  buffer : Bytes
  /-- The opcode of the fragmented message in progress; `none` is -1. -/
  fragOpcode : Option Nat
  fragPayload : Bytes
  maxMessageSize : Int
  deriving Repr, DecidableEq

/-- `WSState(max_message_size)`. -/
def WSState.fresh (maxMessageSize : Int) : WSState := ⟨[], none, [], maxMessageSize⟩

/-- `_fail`: the close frame behind what this `feed` parsed before it. -/
def WSState.fail (st : WSState) (res : WSParseResult) (code : Nat) : WSState × WSParseResult :=
  ({ st with buffer := [], fragOpcode := none, fragPayload := [] },
    { res with reply := res.reply ++ closeFrame code, closeAfterReply := true, closeCode := code })

/-! ## A frame's header and payload -/

/-- What a frame's length field says: not all there, a violation, or the header's length
without the mask and the payload's. -/
inductive FrameLength where
  | short
  | bad (code : Nat)
  | length (header plen : Nat)
  deriving Repr, DecidableEq

/-- `plen64`: eight bytes from `at` on, big-endian. -/
def plen64At (buffer : Bytes) (at_ : Nat) : UInt64 :=
  (List.range 8).foldl (fun v j => (v <<< 8) ||| (buffer.getD (at_ + j) 0).toUInt64) 0

def readLength (maxMessageSize : Int) (buffer : Bytes) (i opcode b1 : Nat) : FrameLength :=
  let n := buffer.length
  let plen := b1 &&& 0x7F
  if plen = 126 then
    if n - i < 4 then .short
    else
      let plen := ((buffer.getD (i + 2) 0).toNat <<< 8) ||| (buffer.getD (i + 3) 0).toNat
      if plen < 126 then .bad WS_CLOSE_PROTOCOL_ERROR else .length 4 plen
  else if plen = 127 then
    if n - i < 10 then .short
    else
      let plen64 := plen64At buffer (i + 2)
      if plen64 >>> 63 ≠ 0 ∨ plen64 ≤ 0xFFFF then .bad WS_CLOSE_PROTOCOL_ERROR
      else if opcode ≥ 0x8 then .bad WS_CLOSE_PROTOCOL_ERROR
      else if plen64 > UInt64.ofInt maxMessageSize then .bad WS_CLOSE_TOO_BIG
      else .length 10 plen64.toNat
  else .length 2 plen

/-- What stands at `i`: no whole frame yet, a violation, or a frame. -/
inductive FrameRead where
  | short
  | bad (code : Nat)
  | frame (fin : Bool) (opcode : Nat) (payload : Bytes) (size : Nat)
  deriving Repr, DecidableEq

def readFrame (maxMessageSize : Int) (buffer : Bytes) (i : Nat) : FrameRead :=
  let n := buffer.length
  if n - i < 2 then .short
  else
    let b0 := (buffer.getD i 0).toNat
    let b1 := (buffer.getD (i + 1) 0).toNat
    let opcode := b0 &&& 0x0F
    if b0 &&& 0x70 ≠ 0 then .bad WS_CLOSE_PROTOCOL_ERROR
    else if b1 &&& 0x80 = 0 then .bad WS_CLOSE_PROTOCOL_ERROR
    else
      match readLength maxMessageSize buffer i opcode b1 with
      | .short => .short
      | .bad code => .bad code
      | .length header plen =>
        if opcode ≥ 0x8 ∧ plen > 125 then .bad WS_CLOSE_PROTOCOL_ERROR
        else if (plen : Int) > maxMessageSize then .bad WS_CLOSE_TOO_BIG
        else if n - i < header + 4 + plen then .short
        else
          let maskAt := i + header
          .frame (b0 &&& 0x80 ≠ 0) opcode
            (unmaskPayload (slice buffer (maskAt + 4) (maskAt + 4 + plen))
              (slice buffer maskAt (maskAt + 4)))
            (header + 4 + plen)

/-! ## What a frame does -/

/-- The loop goes on, or `feed` returns. -/
inductive Taken where
  | again (st : WSState) (res : WSParseResult)
  | closed (st : WSState) (res : WSParseResult)
  deriving Repr, DecidableEq

def Taken.fail (st : WSState) (res : WSParseResult) (code : Nat) : Taken :=
  .closed (st.fail res code).1 (st.fail res code).2

/-- The peer's Close: its body checked, its code echoed. -/
def takeClose (st : WSState) (res : WSParseResult) (payload : Bytes) : Taken :=
  let code := ((payload.getD 0 0).toNat <<< 8) ||| (payload.getD 1 0).toNat
  if payload.length = 1 then .fail st res WS_CLOSE_PROTOCOL_ERROR
  else if payload.length ≥ 2 ∧ !closeCodeIsValidFromPeer code then
    .fail st res WS_CLOSE_PROTOCOL_ERROR
  else if payload.length > 2 ∧ !isValidUtf8 (payload.drop 2) then
    .fail st res WS_CLOSE_INVALID_DATA
  else
    .closed { st with buffer := [] }
      { res with
        reply := res.reply ++ encodeWsFrame WS_OP_CLOSE (payload.take 2)
        closeAfterReply := true
        closeCode := if payload.length ≥ 2 then code else 1005 }

/-- A continuation of the message in progress. Text is checked on the whole message. -/
def takeCont (st : WSState) (res : WSParseResult) (fin : Bool) (payload : Bytes) : Taken :=
  match st.fragOpcode with
  | none => .fail st res WS_CLOSE_PROTOCOL_ERROR
  | some fragOpcode =>
    if ((st.fragPayload.length + payload.length : Nat) : Int) > st.maxMessageSize then
      .fail st res WS_CLOSE_TOO_BIG
    else
      let fragPayload := st.fragPayload ++ payload
      if fin then
        if fragOpcode = WS_OP_TEXT ∧ !isValidUtf8 fragPayload then
          .fail { st with fragPayload } res WS_CLOSE_INVALID_DATA
        else .again { st with fragOpcode := none, fragPayload := [] } { res with
          msgOpcodes := res.msgOpcodes ++ [fragOpcode]
          msgPayloads := res.msgPayloads ++ [fragPayload] }
      else .again { st with fragPayload } res

def takeFrame (st : WSState) (res : WSParseResult) (fin : Bool) (opcode : Nat) (payload : Bytes) :
    Taken :=
  if opcode ≥ 0x8 then
    if !fin then .fail st res WS_CLOSE_PROTOCOL_ERROR
    else if opcode = WS_OP_PING then
      .again st { res with reply := res.reply ++ encodeWsFrame WS_OP_PONG payload }
    else if opcode = WS_OP_PONG then .again st res
    else if opcode = WS_OP_CLOSE then takeClose st res payload
    else .fail st res WS_CLOSE_PROTOCOL_ERROR
  else if opcode = WS_OP_TEXT ∨ opcode = WS_OP_BINARY then
    if st.fragOpcode ≠ none then .fail st res WS_CLOSE_PROTOCOL_ERROR
    else if fin then
      if opcode = WS_OP_TEXT ∧ !isValidUtf8 payload then .fail st res WS_CLOSE_INVALID_DATA
      else .again st { res with
        msgOpcodes := res.msgOpcodes ++ [opcode]
        msgPayloads := res.msgPayloads ++ [payload] }
    else .again { st with fragOpcode := some opcode, fragPayload := payload } res
  else if opcode = WS_OP_CONT then takeCont st res fin payload
  else .fail st res WS_CLOSE_PROTOCOL_ERROR

/-! ## The loop -/

/-- `while True` of `feed`, from offset `i`. Behind it only the unparsed tail is kept. `fuel`
bounds the frames: each takes six bytes at least. -/
def feedLoop : (fuel : Nat) → WSState → WSParseResult → (i : Nat) → WSState × WSParseResult
  | 0, st, res, _ => (st, res)
  | fuel + 1, st, res, i =>
    match readFrame st.maxMessageSize st.buffer i with
    | .short =>
      ({ st with buffer := if i > 0 then slice st.buffer i st.buffer.length else st.buffer }, res)
    | .bad code => st.fail res code
    | .frame fin opcode payload size =>
      match takeFrame st res fin opcode payload with
      | .again st res => feedLoop fuel st res (i + size)
      | .closed st res => (st, res)

/-- `feed`: consume received bytes, return whatever became actionable. -/
def WSState.feed (st : WSState) (data : Bytes) : WSState × WSParseResult :=
  let st := { st with buffer := st.buffer ++ data }
  feedLoop (st.buffer.length + 1) st {} 0

/-! ## Reads one after another -/

/-- What two results add up to, the first of which did not close. -/
def WSParseResult.append (a b : WSParseResult) : WSParseResult where
  msgOpcodes := a.msgOpcodes ++ b.msgOpcodes
  msgPayloads := a.msgPayloads ++ b.msgPayloads
  reply := a.reply ++ b.reply
  closeAfterReply := b.closeAfterReply
  closeCode := b.closeCode

/-- The reads fed in order, up to the first that closes. -/
def WSState.feedReads : WSState → List Bytes → WSParseResult
  | _, [] => {}
  | st, data :: reads =>
    let (st, res) := st.feed data
    if res.closeAfterReply then res else res.append (st.feedReads reads)

end MojoHttp
