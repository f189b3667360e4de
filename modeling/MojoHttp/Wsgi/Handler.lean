import MojoHttp.Sse.Format
import MojoHttp.Sse.Replay
import MojoHttp.WebSocket.Frames

/-!
# The loop's handler: streams, sockets and holds by slot (`handler.mojo`)

What the loop's `WSGIHandler` keeps for each connection slot, and what it does with the frames its
producers send it over the chunk channel and the bus, with the loop's drains and disconnects, and with
the messages a client sends on a socket. A producer's frame names a slot in its channel name and its
stream's generation in its id; what the handler itself puts on a channel is appended to `sent`.
-/

namespace MojoHttp

open BytesConstant

def NOT_POOL_HELD : Int := -2
def NOT_EXECUTOR_OWNED : Int := -2
def NOT_INLINE_HELD : Int := -1
def STREAM_GEN_NONE : Int := 0
def STREAM_GEN_HELD : Int := -2
def ASGI_URL_CONTROL : UInt8 := 1
def WS_IN_WINDOW : Int := 65536
def WS_TAG_HEADER : Nat := 10
def WS_DATAGRAM_MAX : Nat := 65546
def WS_HEADER : Nat := 12

/-! ## Channel names -/

/-- What follows the `which`-th slash. -/
def afterSlash : Bytes → (which : Nat) → Option Bytes
  | [], _ => none
  | c :: rest, which =>
    if c == SLASH then
      match which with
      | 0 => some rest
      | which + 1 => afterSlash rest which
    else afterSlash rest which

/-- The digits up to the next slash, -1 for anything else. -/
def parseDigits : Bytes → (value : Int) → Int
  | [], value => value
  | c :: rest, value =>
    if c == SLASH then value
    else if c < 0x30 || c > 0x39 then -1
    else parseDigits rest (value * 10 + (c.toNat - 0x30 : Nat))

/-- `_parse_url_number`: the `which`-th number of a reserved name; -1 if absent or malformed. -/
def parseUrlNumber (url : Bytes) (which : Nat) : Int :=
  match afterSlash url which with
  | none => -1
  | some [] => -1
  | some digits => parseDigits digits 0

def parseStreamSlot (url : Bytes) : Int := parseUrlNumber url 0
def parseStreamLane (url : Bytes) : Int := parseUrlNumber url 1

/-- The name addresses a slot: it opens with the control byte. -/
def isReserved (url : Bytes) : Bool := url.length ≥ 3 && url.getD 0 0 == ASGI_URL_CONTROL

/-- `pool_stream_ack_fd`: the ack fd a `P` name carries, or -1 for any other. -/
def poolStreamAckFd (url : Bytes) : Int :=
  if !isReserved url || url.getD 1 0 != 0x50 then -1 else parseUrlNumber url 2

/-- The kinds of frame a reserved name may carry, by its second byte. -/
inductive FrameKind where
  /-- `b`, an executor's stream. -/
  | begin
  /-- `P`, a pool thread's. -/
  | poolBegin
  /-- `s` -/
  | chunk
  /-- `e` -/
  | finish
  /-- `h`, a hold taken on a pool thread. -/
  | hold
  /-- `H`, a socket hold. -/
  | socketHold
  /-- `B`, an executor's socket. -/
  | socketBegin
  /-- `w` -/
  | socketFrame
  /-- `x` -/
  | socketFinish
  /-- `r`, what the application has consumed. -/
  | consumed
  deriving Repr, DecidableEq

def frameKind (url : Bytes) : Option FrameKind :=
  let c := url.getD 1 0
  if c == 0x62 then some .begin
  else if c == 0x50 then some .poolBegin
  else if c == 0x73 then some .chunk
  else if c == 0x65 then some .finish
  else if c == 0x68 then some .hold
  else if c == 0x48 then some .socketHold
  else if c == 0x42 then some .socketBegin
  else if c == 0x77 then some .socketFrame
  else if c == 0x78 then some .socketFinish
  else if c == 0x72 then some .consumed
  else none

/-! ## The handler -/

/-- What the handler puts on a channel, or hands to an application. -/
inductive Sent where
  /-- `abort_stream` on the completion channel. -/
  | abort (slot gen : Int)
  /-- `(slot, ACK_DISCONNECT)` on a pool thread's ack pair. -/
  | poolDisconnect (ackFd slot : Int)
  /-- A disconnect for the executor of a lane. -/
  | disconnect (lane slot code : Int)
  /-- A published frame for every executor. -/
  | busFrame (eventId : Int) (url frame : Bytes)
  /-- An inbound message for the executor that owns the socket. -/
  | wsMessage (slot : Int) (opcode : UInt8) (payload : Bytes)
  /-- One for the pool whose thread holds the socket. -/
  | poolMessage (lane slot : Int) (opcode : UInt8) (channel payload : Bytes)
  /-- One served here, by application `app`'s view. -/
  | view (app slot : Int) (opcode : UInt8) (channel payload : Bytes)
  deriving Repr, DecidableEq

structure WSGIHandler where
  streams : SSERegistry
  sockets : SSERegistry
  /-- How long the tables by slot below are. -/
  slots : Nat
  /-- The stream ends at the drain that hands out its last bytes. -/
  asgiDone : Int → Bool
  /-- The generation of the stream the slot is subscribed to. -/
  streamGen : Int → Int
  /-- The slot's outbox has refused a frame. -/
  streamLost : Int → Bool
  execLane : Int → Int
  holdLane : Int → Int
  holdApp : Int → Int
  /-- Datagram bytes charged to the inbound window. -/
  wsInSent : Int → Int
  /-- The application's count of those consumed, as last heard. -/
  wsInAcked : Int → Int
  /-- `[opcode u8][len u32 LE][payload]` records, first in first out. -/
  wsParked : Int → Bytes
  wsParkedCount : Int
  wsResume : List Int
  wsRefused : Int → Bool
  wsCloses : List Int
  wsClosedWith : Int → Int
  replay : ReplayJournal
  /-- `shared_id != 0`: ids come from the shared counter. -/
  sharedId : Bool
  /-- `asgi_notify_fd >= 0`. -/
  asgiNotify : Bool
  /-- `abort_pool_addr != 0`. -/
  abortPool : Bool
  /-- `ws_pool_fds[at] >= 0`. -/
  poolFd : Int → Bool
  sent : List Sent

namespace WSGIHandler

/-- `slot < len(self.asgi_done)`, and of every other table. -/
def inTable (h : WSGIHandler) (slot : Int) : Bool := 0 ≤ slot && slot < h.slots

def emit (h : WSGIHandler) (s : Sent) : WSGIHandler := { h with sent := h.sent ++ [s] }

/-! ### The tables by slot -/

/-- `_clear_lost`. -/
def clearLost (h : WSGIHandler) (slot : Int) : WSGIHandler :=
  if h.inTable slot then { h with streamLost := Function.update h.streamLost slot false } else h

/-- `_set_stream_gen`. -/
def setStreamGen (h : WSGIHandler) (slot gen : Int) : WSGIHandler :=
  if h.inTable slot then { h with streamGen := Function.update h.streamGen slot gen } else h

/-- `_gen_matches`. -/
def genMatches (h : WSGIHandler) (slot gen : Int) : Bool := h.inTable slot && h.streamGen slot == gen

def setDone (h : WSGIHandler) (slot : Int) (value : Bool) : WSGIHandler :=
  if h.inTable slot then { h with asgiDone := Function.update h.asgiDone slot value } else h

def isDone (h : WSGIHandler) (slot : Int) : Bool := h.inTable slot && h.asgiDone slot

def setExecLane (h : WSGIHandler) (slot lane : Int) : WSGIHandler :=
  if h.inTable slot then { h with execLane := Function.update h.execLane slot lane } else h

def setHoldLane (h : WSGIHandler) (slot lane : Int) : WSGIHandler :=
  if h.inTable slot then { h with holdLane := Function.update h.holdLane slot lane } else h

theorem clearLost_eq {h : WSGIHandler} {slot : Int} (hin : h.inTable slot = true) :
    h.clearLost slot = { h with streamLost := Function.update h.streamLost slot false } := if_pos hin

theorem setStreamGen_eq {h : WSGIHandler} {slot : Int} (hin : h.inTable slot = true) (gen : Int) :
    h.setStreamGen slot gen = { h with streamGen := Function.update h.streamGen slot gen } := if_pos hin

theorem setDone_eq {h : WSGIHandler} {slot : Int} (hin : h.inTable slot = true) (value : Bool) :
    h.setDone slot value = { h with asgiDone := Function.update h.asgiDone slot value } := if_pos hin

theorem setExecLane_eq {h : WSGIHandler} {slot : Int} (hin : h.inTable slot = true) (lane : Int) :
    h.setExecLane slot lane = { h with execLane := Function.update h.execLane slot lane } := if_pos hin

/-- A pool thread's view holds the slot. -/
def poolHeld (h : WSGIHandler) (slot : Int) : Bool :=
  h.inTable slot && h.holdLane slot != NOT_POOL_HELD

/-- The inbound window of a new socket, whole; what the last tenant left parked goes. -/
def resetInbound (h : WSGIHandler) (slot : Int) : WSGIHandler :=
  if h.inTable slot then
    let h := { h with
      wsInSent := Function.update h.wsInSent slot 0
      wsInAcked := Function.update h.wsInAcked slot 0 }
    if 0 < (h.wsParked slot).length then
      { h with
        wsParked := Function.update h.wsParked slot []
        wsParkedCount := h.wsParkedCount - 1 }
    else h
  else h

/-- `_claim_lost`: whether this caller is the one that has to tear the connection down. -/
def claimLost (h : WSGIHandler) (slot : Int) : WSGIHandler × Bool :=
  if !h.inTable slot then (h, false)
  else if h.streamLost slot then (h, false)
  else ({ h with streamLost := Function.update h.streamLost slot true }, true)

/-- `_abort_stream`. -/
def abortStream (h : WSGIHandler) (slot gen : Int) : WSGIHandler :=
  if !h.abortPool then h else h.emit (.abort slot gen)

/-- `_end_once_drained`. -/
def endOnceDrained (h : WSGIHandler) (slot : Int) : WSGIHandler :=
  if h.inTable slot then
    { h with
      asgiDone := Function.update h.asgiDone slot true
      streams := h.streams.markReady slot
      sockets := h.sockets.markReady slot }
  else h

/-- `_end_socket`. -/
def endSocket (h : WSGIHandler) (slot : Int) : WSGIHandler := h.endOnceDrained slot

/-- `_event_head`: the newest id allocated anywhere. -/
def eventHead (h : WSGIHandler) (counter : Int) : Int :=
  if h.sharedId then counter else h.replay.head

/-- `_socket_last_id`. -/
def socketLastId (h : WSGIHandler) (lastId counter : Int) : Int :=
  if lastId > h.eventHead counter then h.eventHead counter else lastId

/-- The frame that tells a client its stream has a gap. -/
def gapFrame (lastId head : Int) : Bytes :=
  formatSseEventBytes NO_EVENT_ID (ascii "m0-gap")
    (ascii "\x7b\"last_event_id\":" ++ intText lastId ++ ascii ",\"head\":" ++ intText head ++ ascii "\x7d")

/-- `_resume`: a stream that reconnected is caught up, or told that it cannot be. -/
def resume (h : WSGIHandler) (slot : Int) (url : Bytes) (lastId counter : Int) : WSGIHandler :=
  if lastId ≤ 0 then h
  else
    let head := h.eventHead counter
    let caught := if lastId > head then (h.streams.subscribe slot url head, false)
      else h.replay.catchUp h.streams slot url lastId
    if caught.2 then { h with streams := caught.1 }
    else { h with streams := (caught.1.queueFrame slot NO_EVENT_ID (gapFrame lastId head)).1 }

/-! ### Inbound messages -/

/-- `_ws_in_cost`: the datagram bytes, clamped to the window. -/
def wsInCost (payloadLen : Nat) : Int := min (WS_TAG_HEADER + payloadLen : Nat) WS_IN_WINDOW

/-- `filter_url`. -/
def filterUrl (r : SSERegistry) (slot : Int) : Bytes :=
  if r.inRange slot then (r.slots slot).filterUrl else []

/-- `ws_message_room`. -/
def wsMessageRoom (channel : Bytes) : Int := WS_DATAGRAM_MAX - WS_HEADER - channel.length

/-- `_ws_datagram_room`: the largest payload the slot's channel carries, -1 where none is involved. -/
def wsDatagramRoom (h : WSGIHandler) (slot : Int) : Int :=
  if h.poolHeld slot then wsMessageRoom (filterUrl h.sockets slot)
  else if h.asgiNotify && h.sockets.isSlotStreaming slot then WS_DATAGRAM_MAX - WS_TAG_HEADER
  else -1

/-- `_ws_refuse_too_big`: the socket ends with a Close carrying 1009. -/
def wsRefuseTooBig (h : WSGIHandler) (slot : Int) : WSGIHandler :=
  let h := if h.inTable slot then
      { h with
        wsRefused := Function.update h.wsRefused slot true
        wsClosedWith := Function.update h.wsClosedWith slot (WS_CLOSE_TOO_BIG : Int) }
    else h
  if h.isDone slot then h
  else
    let queued := h.sockets.queueFrame slot NO_EVENT_ID (closeFrame WS_CLOSE_TOO_BIG)
    let h := { h with sockets := queued.1 }
    let h := if queued.2 then h.endOnceDrained slot else h.endSocket slot
    if h.poolHeld slot then { h with wsCloses := h.wsCloses ++ [slot] } else h

/-- `_ws_forward`: one delivery attempt; `taken` is whether the channel takes the datagram. -/
def wsForward (h : WSGIHandler) (slot : Int) (opcode : UInt8) (payload : Bytes) (taken : Bool) :
    WSGIHandler × Bool :=
  let limit := h.wsDatagramRoom slot
  if h.inTable slot && h.wsRefused slot then (h, true)
  else if limit ≥ 0 && (payload.length : Int) > limit then (h.wsRefuseTooBig slot, true)
  else if h.poolHeld slot then
    let lane := if h.holdLane slot > 0 then h.holdLane slot else 0
    let channel := filterUrl h.sockets slot
    if h.poolFd lane && h.abortPool then
      if (payload.length : Int) > wsMessageRoom channel || !taken then (h, false)
      else (h.emit (.poolMessage lane slot opcode channel payload), true)
    else (h, true)
  else if h.asgiNotify && h.sockets.isSlotStreaming slot then
    let cost := wsInCost payload.length
    if h.inTable slot && h.wsInSent slot - h.wsInAcked slot + cost > WS_IN_WINDOW then (h, false)
    else if WS_TAG_HEADER + payload.length > WS_DATAGRAM_MAX || !taken then (h, false)
    else
      let h := h.emit (.wsMessage slot opcode payload)
      (if h.inTable slot then
        { h with wsInSent := Function.update h.wsInSent slot (h.wsInSent slot + cost) }
      else h, true)
  else
    let channel := filterUrl h.sockets slot
    let app := if h.inTable slot && h.holdApp slot ≥ 0 then h.holdApp slot else 0
    if channel.length == 0 then (h, true) else (h.emit (.view app slot opcode channel payload), true)

/-- One `[opcode u8][len u32 LE][payload]` record. -/
def parkedRecord (opcode : UInt8) (payload : Bytes) : Bytes :=
  opcode :: ([0, 8, 16, 24].map fun shift => UInt8.ofNat (payload.length >>> shift &&& 0xFF)) ++ payload

/-- `_ws_park`. -/
def wsPark (h : WSGIHandler) (slot : Int) (opcode : UInt8) (payload : Bytes) : WSGIHandler :=
  { h with
    wsParkedCount := if (h.wsParked slot).length == 0 then h.wsParkedCount + 1 else h.wsParkedCount
    wsParked := Function.update h.wsParked slot (h.wsParked slot ++ parkedRecord opcode payload) }

/-- `ws_message_take`. -/
def wsMessageTake (h : WSGIHandler) (slot : Int) (opcode : UInt8) (payload : Bytes) (taken : Bool) :
    WSGIHandler × Bool :=
  if h.inTable slot && 0 < (h.wsParked slot).length then (h.wsPark slot opcode payload, false)
  else
    let forwarded := h.wsForward slot opcode payload taken
    if forwarded.2 then (forwarded.1, true)
    else if h.inTable slot then (forwarded.1.wsPark slot opcode payload, false)
    else (forwarded.1, true)

/-- The `u32 LE` length of the record at the front. -/
def recordLength (records : Bytes) : Nat :=
  (records.getD 1 0).toNat + (records.getD 2 0).toNat <<< 8 + (records.getD 3 0).toNat <<< 16 +
    (records.getD 4 0).toNat <<< 24

/-- The loop of `_ws_drain_parked` over the records still to replay, each attempt with its answer of
the channel; what is left at the first refusal. -/
def drainRecords (slot : Int) : (fuel : Nat) → WSGIHandler → (records : Bytes) → List Bool →
    WSGIHandler × Bytes
  | 0, h, records, _ => (h, records)
  | fuel + 1, h, records, answers =>
    if records.length < 5 then (h, records)
    else
      let n := recordLength records
      if records.length < 5 + n then (h, records)
      else
        let payload := slice records 5 (5 + n)
        let forwarded := h.wsForward slot (records.getD 0 0) payload (answers.headD false)
        if forwarded.2 then drainRecords slot fuel forwarded.1 (records.drop (5 + n)) answers.tail
        else (forwarded.1, records)

/-- `_ws_drain_parked`. -/
def wsDrainParked (h : WSGIHandler) (slot : Int) (answers : List Bool) : WSGIHandler :=
  if !h.inTable slot || (h.wsParked slot).length == 0 then h
  else
    let drained := drainRecords slot (h.wsParked slot).length h (h.wsParked slot) answers
    let h := drained.1
    if drained.2.isEmpty then
      { h with
        wsParked := Function.update h.wsParked slot []
        wsParkedCount := h.wsParkedCount - 1
        wsResume := h.wsResume ++ [slot] }
    else { h with wsParked := Function.update h.wsParked slot drained.2 }

/-- `take_ws_resumes`, with the channels' answers to the retries by slot. -/
def takeWsResumes (h : WSGIHandler) (answers : Int → List Bool) : WSGIHandler × List Int :=
  let h := if h.wsParkedCount > 0 then
      (slotRange h.slots).foldl (fun h slot =>
        if 0 < (h.wsParked slot).length then h.wsDrainParked slot (answers slot) else h) h
    else h
  ({ h with wsResume := [] }, h.wsResume)

/-! ### What a producer's frame does -/

/-- `b` and `P`: the slot becomes the stream's. -/
def beginStream (h : WSGIHandler) (slot : Int) (url : Bytes) (gen : Int) (executor : Bool) :
    WSGIHandler :=
  let h := { h with streams := h.streams.subscribe slot url NO_EVENT_ID }
  let h := h.setDone slot false
  let h := if executor then h.setExecLane slot (parseStreamLane url) else h
  (h.clearLost slot).setStreamGen slot gen

/-- `s`: a response chunk, for the stream that subscribed the slot. -/
def chunk (h : WSGIHandler) (slot gen : Int) (frame : Bytes) : WSGIHandler :=
  if h.streams.isSlotStreaming slot && h.genMatches slot gen then
    let queued := h.streams.queueFrame slot NO_EVENT_ID frame
    let h := { h with streams := queued.1 }
    if queued.2 then h
    else
      let claimed := h.claimLost slot
      if claimed.2 then claimed.1.abortStream slot gen else claimed.1
  else h

/-- `has_pending`. -/
def hasPending (r : SSERegistry) (slot : Int) : Bool :=
  r.inRange slot && 0 < (r.slots slot).pendingBuf.length

/-- `e`: what is pending is handed out first. -/
def finish (h : WSGIHandler) (slot gen : Int) : WSGIHandler :=
  if !h.genMatches slot gen then h
  else if hasPending h.streams slot then h.endOnceDrained slot
  else { h with streams := h.streams.unsubscribe slot }

/-- `h`: a hold taken on a pool thread; the id is the request's `Last-Event-ID`. -/
def hold (h : WSGIHandler) (slot : Int) (channel : Bytes) (lastId counter : Int) : WSGIHandler :=
  let h := { h with streams := h.streams.subscribe slot channel lastId }
  ((h.clearLost slot).setStreamGen slot STREAM_GEN_HELD).resume slot channel lastId counter

/-- `H`: a socket hold. -/
def socketHold (h : WSGIHandler) (slot : Int) (url channel : Bytes) (lastId counter : Int) :
    WSGIHandler :=
  let h := { h with sockets := h.sockets.subscribe slot channel (h.socketLastId lastId counter) }
  let h := h.setHoldLane slot (parseStreamLane url)
  (h.clearLost slot).setStreamGen slot STREAM_GEN_HELD

/-- `B`: the slot becomes the socket's. -/
def beginSocket (h : WSGIHandler) (slot : Int) (url : Bytes) (gen : Int) : WSGIHandler :=
  let h := { h with sockets := h.sockets.subscribe slot url NO_EVENT_ID }
  let h := h.setDone slot false
  let h := h.setExecLane slot (parseStreamLane url)
  ((h.clearLost slot).setStreamGen slot gen).resetInbound slot

/-- Queues one frame for a socket; one that its outbox refuses ends it. -/
def queueSocket (h : WSGIHandler) (slot : Int) (frame : Bytes) : WSGIHandler :=
  let queued := h.sockets.queueFrame slot NO_EVENT_ID frame
  let h := { h with sockets := queued.1 }
  if queued.2 then h
  else
    let claimed := h.claimLost slot
    if claimed.2 then claimed.1.endSocket slot else claimed.1

/-- `w`: an outbound frame. -/
def socketFrame (h : WSGIHandler) (slot gen : Int) (frame : Bytes) : WSGIHandler :=
  if h.sockets.isSlotStreaming slot && h.genMatches slot gen then h.queueSocket slot frame else h

/-- `x`: the socket's end, with the Close frame that ends it. -/
def socketFinish (h : WSGIHandler) (slot gen : Int) (frame : Bytes) : WSGIHandler :=
  if !h.genMatches slot gen then h
  else
    let h := if 0 < frame.length && h.sockets.isSlotStreaming slot then h.queueSocket slot frame else h
    if hasPending h.sockets slot then h.endOnceDrained slot
    else { h with sockets := h.sockets.unsubscribe slot }

/-- `read_i64_le`. -/
def readI64Le (bytes : Bytes) : Int :=
  let bits := (List.range 8).foldl (fun bits i => bits + (bytes.getD i 0).toNat <<< (8 * i)) 0
  if bits < 2 ^ 63 then bits else bits - 2 ^ 64

/-- `r`: the application's cumulative count, clamped to what was charged, never taken back. -/
def consumed (h : WSGIHandler) (slot gen : Int) (frame : Bytes) (answers : List Bool) : WSGIHandler :=
  if !h.genMatches slot gen then h
  else if frame.length < 8 then h
  else
    let count := min (readI64Le frame) (h.wsInSent slot)
    let h := if count > h.wsInAcked slot then
        { h with wsInAcked := Function.update h.wsInAcked slot count }
      else h
    h.wsDrainParked slot answers

/-- A published frame, from any worker's application. -/
def published (h : WSGIHandler) (url : Bytes) (eventId : Int) (frame : Bytes) : WSGIHandler :=
  let h := if h.asgiNotify then h.emit (.busFrame eventId url frame) else h
  let h := { h with
    replay := h.replay.record url eventId frame
    streams := (h.streams.notifyFrame url eventId frame).1 }
  -- a socket needs an RFC 6455 frame around the event's payload
  let text := encodeWsFrame WS_OP_TEXT (sseDataPayload frame)
  { h with sockets := (h.sockets.notifyFrame url eventId text).1 }

/-- `sse_peer_frame`; `counter` is the shared counter's value, `answers` the channel's to what an `r`
frame retries. -/
def ssePeerFrame (h : WSGIHandler) (url : Bytes) (eventId : Int) (frame : Bytes) (counter : Int)
    (answers : List Bool) : WSGIHandler :=
  if isReserved url then
    let slot := parseStreamSlot url
    if slot < 0 then h
    else
      match frameKind url with
      | some .begin => h.beginStream slot url eventId true
      | some .poolBegin => h.beginStream slot url eventId false
      | some .chunk => h.chunk slot eventId frame
      | some .finish => h.finish slot eventId
      | some .hold => h.hold slot frame eventId counter
      | some .socketHold => h.socketHold slot url frame eventId counter
      | some .socketBegin => h.beginSocket slot url eventId
      | some .socketFrame => h.socketFrame slot eventId frame
      | some .socketFinish => h.socketFinish slot eventId frame
      | some .consumed => h.consumed slot eventId frame answers
      | none => h
  else h.published url eventId frame

/-! ### What the loop asks -/

/-- `sse_drain_slot`. -/
def sseDrainSlot (h : WSGIHandler) (slot : Int) : WSGIHandler × Bytes :=
  if h.sockets.isSlotStreaming slot then
    let out := h.sockets.drain slot
    let h := { h with sockets := out.1 }
    if h.isDone slot && !hasPending h.sockets slot then
      -- these bytes end with the close frame
      (({ h with sockets := h.sockets.unsubscribe slot }).setDone slot false, out.2)
    else (h, out.2)
  else
    let out := h.streams.drain slot
    let h := { h with streams := out.1 }
    if h.isDone slot && !hasPending h.streams slot then
      -- the stream's last bytes
      (({ h with streams := h.streams.unsubscribe slot }).setDone slot false, out.2)
    else (h, out.2)

/-- `sse_is_streaming`. -/
def sseIsStreaming (h : WSGIHandler) (slot : Int) : Bool :=
  h.streams.isSlotStreaming slot || h.sockets.isSlotStreaming slot

/-- Who is told that the slot's client has gone: a pool thread on its own ack pair, or the executor
that owned the connection. -/
def disconnectNotice (h : WSGIHandler) (slot : Int) : List Sent :=
  let execLane := if h.inTable slot then h.execLane slot else NOT_EXECUTOR_OWNED
  let wasAsgi := h.asgiNotify && (h.streams.isSlotStreaming slot || h.sockets.isSlotStreaming slot ||
    h.isDone slot || execLane != NOT_EXECUTOR_OWNED)
  let url := filterUrl h.streams slot
  let url := if url.length == 0 then filterUrl h.sockets slot else url
  let poolAckFd := if h.streams.isSlotStreaming slot then poolStreamAckFd url else -1
  let code := if h.inTable slot then h.wsClosedWith slot else 0
  if poolAckFd ≥ 0 then [.poolDisconnect poolAckFd slot]
  else if wasAsgi then
    [.disconnect (if 0 < url.length then parseStreamLane url else execLane) slot code]
  else []

/-- The tables by slot, as a connection leaves them. -/
def clearSlot (h : WSGIHandler) (slot : Int) : WSGIHandler :=
  if h.inTable slot then
    { h with
      wsClosedWith := Function.update h.wsClosedWith slot 0
      wsRefused := Function.update h.wsRefused slot false
      holdLane := Function.update h.holdLane slot NOT_POOL_HELD
      holdApp := Function.update h.holdApp slot NOT_INLINE_HELD
      asgiDone := Function.update h.asgiDone slot false
      execLane := Function.update h.execLane slot NOT_EXECUTOR_OWNED
      streamGen := Function.update h.streamGen slot STREAM_GEN_NONE
      streamLost := Function.update h.streamLost slot false }
  else h

/-- `sse_slot_disconnected`. -/
def sseSlotDisconnected (h : WSGIHandler) (slot : Int) : WSGIHandler :=
  let notice := h.disconnectNotice slot
  let h := { h with
    streams := h.streams.unsubscribe slot
    sockets := h.sockets.unsubscribe slot }
  let h := (h.clearSlot slot).resetInbound slot
  { h with sent := h.sent ++ notice }

/-- A handler that holds nothing, over tables of `slots`. -/
def new (slots : Nat) (replayFrames : Int) (sharedId asgiNotify abortPool : Bool)
    (poolFd : Int → Bool) : WSGIHandler where
  streams := SSERegistry.new slots
  sockets := SSERegistry.new slots
  slots := slots
  asgiDone _ := false
  streamGen _ := STREAM_GEN_NONE
  streamLost _ := false
  execLane _ := NOT_EXECUTOR_OWNED
  holdLane _ := NOT_POOL_HELD
  holdApp _ := NOT_INLINE_HELD
  wsInSent _ := 0
  wsInAcked _ := 0
  wsParked _ := []
  wsParkedCount := 0
  wsResume := []
  wsRefused _ := false
  wsCloses := []
  wsClosedWith _ := 0
  replay := ReplayJournal.new replayFrames
  sharedId := sharedId
  asgiNotify := asgiNotify
  abortPool := abortPool
  poolFd := poolFd
  sent := []

end WSGIHandler

end MojoHttp
