import MojoHttp.WebSocket.Wire
import MojoHttp.Wsgi.ChannelNames
import MojoHttp.Sse.Subscriptions

/-!
# What follows a socket's Close (`handler.mojo`)

One socket of the handler, from its begin on: the application's frames and its end, the bus, the
client's messages, some of them too big for their channel, and the loop's drains.

* **`Socket.Held.step`** — each call puts its frames behind those there were, or hands all of them out.
* **`Socket.closeEnds_iff_clear`** — the socket is handed at most one Close, with no frame behind it,
  exactly when no frame of the application's or the bus is taken while a Close waits.
-/

namespace MojoHttp

/-- A socket of the handler: where it is, and what its producer stamps on its frames. -/
structure Socket where
  slot : Nat
  lane : Int
  gen : Int

namespace Socket

inductive Call where
  /-- `w`: a text or a binary message of the application's. -/
  | frame (text : Bool) (payload : Bytes)
  /-- `x`, with the payload of the Close frame it carries, if it carries one. -/
  | finish (close : Option Bytes)
  | published (url : Bytes) (eventId : Int) (frame : Bytes)
  /-- `ws_message_take`; `taken` is the channel's answer. -/
  | message (opcode : UInt8) (payload : Bytes) (taken : Bool)
  | drain
  deriving Repr, DecidableEq

def dataFrame (text : Bool) (payload : Bytes) : WsFrame :=
  ⟨if text then WS_OP_TEXT else WS_OP_BINARY, payload⟩

def tooBigClose : WsFrame :=
  ⟨WS_OP_CLOSE, [toByte ((WS_CLOSE_TOO_BIG >>> 8) &&& 0xFF), toByte (WS_CLOSE_TOO_BIG &&& 0xFF)]⟩

/-- What an `x` carries. -/
def closeBytes : Option Bytes → Bytes
  | some payload => WsFrame.encode ⟨WS_OP_CLOSE, payload⟩
  | none => []

variable (k : Socket)

def call (h : WSGIHandler) : Call → WSGIHandler
  | .frame text payload =>
    h.ssePeerFrame (reservedStreamUrl 0x77 k.slot k.lane) k.gen (dataFrame text payload).encode 0 []
  | .finish close =>
    h.ssePeerFrame (reservedStreamUrl 0x78 k.slot k.lane) k.gen (closeBytes close) 0 []
  | .published url eventId frame => h.published url eventId frame
  | .message opcode payload taken => (h.wsMessageTake k.slot opcode payload taken).1
  | .drain => (h.sseDrainSlot k.slot).1

/-- The bytes a call hands out for the socket. -/
def handedBy (h : WSGIHandler) : Call → Bytes
  | .drain => (h.sseDrainSlot k.slot).2
  | _ => []

/-- The handler behind a run, and what the run has handed out. -/
def run (h : WSGIHandler) (cs : List Call) : WSGIHandler × Bytes :=
  cs.foldl (fun s c => (k.call s.1 c, s.2 ++ k.handedBy s.1 c)) (h, [])

/-- The socket's row. -/
def row (h : WSGIHandler) : Subscription := h.sockets.slots k.slot

def pending (h : WSGIHandler) : Bytes := (k.row h).pendingBuf

/-- The outbox takes the frame. -/
def takes (h : WSGIHandler) (eventId : Int) (f : WsFrame) : Bool :=
  h.sockets.inRange k.slot && (k.row h).takes eventId f.encode

/-- The message is past what the socket's channel carries, and no earlier one waits or was. -/
def tooBig (h : WSGIHandler) (payload : Bytes) : Bool :=
  !(h.inTable k.slot && 0 < (h.wsParked k.slot).length) &&
    !(h.inTable k.slot && h.wsRefused k.slot) &&
    (h.wsDatagramRoom k.slot ≥ 0 && (payload.length : Int) > h.wsDatagramRoom k.slot)

/-- The frames a call puts in the outbox. -/
def added (h : WSGIHandler) : Call → List WsFrame
  | .frame text payload =>
    if k.takes h NO_EVENT_ID (dataFrame text payload) then [dataFrame text payload] else []
  | .finish (some payload) =>
    if k.takes h NO_EVENT_ID ⟨WS_OP_CLOSE, payload⟩ then [⟨WS_OP_CLOSE, payload⟩] else []
  | .finish none => []
  | .published url eventId frame =>
    if (k.row h).filterUrl == url && k.takes h eventId ⟨WS_OP_TEXT, sseDataPayload frame⟩ then
      [⟨WS_OP_TEXT, sseDataPayload frame⟩]
    else []
  | .message _ payload _ =>
    if k.tooBig h payload && !h.isDone k.slot && k.takes h NO_EVENT_ID tooBigClose then [tooBigClose]
    else []
  | .drain => []

/-- A Close waits in the outbox. -/
def closeWaits (h : WSGIHandler) : Bool := hasClose (wsFrames (k.pending h))

/-- No frame of the application's or of the bus is taken while a Close waits. -/
def clear (h : WSGIHandler) : Call → Bool
  | .message .. => true
  | .drain => true
  | c => (k.added h c).isEmpty || !k.closeWaits h

/-- Every call of the run is clear in the handler it finds. -/
def clearThroughout (h : WSGIHandler) : List Call → Bool
  | [] => true
  | c :: cs => k.clear h c && clearThroughout (k.call h c) cs

/-- The socket as its begin leaves it. -/
structure Opened (h : WSGIHandler) : Prop where
  streaming : h.sockets.isSlotStreaming k.slot = true
  empty : k.pending h = []
  notDone : h.isDone k.slot = false
  gen : h.streamGen k.slot = k.gen
  /-- The tables are as long as the registry. -/
  table : h.sockets.capacity = h.slots
  /-- No stream is on the slot. -/
  notStream : (h.streams.slots k.slot).isStreaming = false
  noStreamBytes : (h.streams.slots k.slot).pendingBuf = []

/-- The slot is nobody's. -/
structure Idle (h : WSGIHandler) : Prop where
  lt : k.slot < h.slots
  table : h.sockets.capacity = h.slots
  notSocket : (k.row h).isStreaming = false
  empty : k.pending h = []
  notDone : h.isDone k.slot = false
  notStream : (h.streams.slots k.slot).isStreaming = false
  noStreamBytes : (h.streams.slots k.slot).pendingBuf = []


/-! ## What a call leaves of the slot -/

variable {k : Socket} {h h' h'' : WSGIHandler}

/-- The outbox gains frames; what else the slot's calls read stays, but for the mark, which is not
taken back. -/
structure Gains (k : Socket) (h h' : WSGIHandler) (frames : List WsFrame) : Prop where
  slots : h'.slots = h.slots
  capacity : h'.sockets.capacity = h.sockets.capacity
  gen : h'.streamGen k.slot = h.streamGen k.slot
  stream : h'.streams.slots k.slot = h.streams.slots k.slot
  streaming : (k.row h').isStreaming = (k.row h).isStreaming
  pending : k.pending h' = k.pending h ++ wire frames
  done : h.isDone k.slot = true → h'.isDone k.slot = true

namespace Gains

theorem refl (k : Socket) (h : WSGIHandler) : Gains k h h [] :=
  ⟨rfl, rfl, rfl, rfl, rfl, (List.append_nil _).symm, id⟩

theorem trans {as bs : List WsFrame} (ha : Gains k h h' as) (hb : Gains k h' h'' bs) :
    Gains k h h'' (as ++ bs) where
  slots := hb.slots.trans ha.slots
  capacity := hb.capacity.trans ha.capacity
  gen := hb.gen.trans ha.gen
  stream := hb.stream.trans ha.stream
  streaming := hb.streaming.trans ha.streaming
  pending := by rw [hb.pending, ha.pending, wire_append, List.append_assoc]
  done hd := hb.done (ha.done hd)

/-- Another registry for the sockets, whose outbox at the slot has gained the frames. -/
theorem sockets {frames : List WsFrame} {r : SSERegistry} (hcap : r.capacity = h.sockets.capacity)
    (hstreaming : (r.slots k.slot).isStreaming = (k.row h).isStreaming)
    (hpending : (r.slots k.slot).pendingBuf = k.pending h ++ wire frames) :
    Gains k h { h with sockets := r } frames :=
  ⟨rfl, hcap, rfl, rfl, hstreaming, hpending, id⟩

end Gains

theorem gains_endOnceDrained : Gains k h (h.endOnceDrained k.slot) [] := by
  unfold WSGIHandler.endOnceDrained
  split
  · next hin =>
    refine ⟨rfl, SSERegistry.capacity_markReady .., rfl, ?_, ?_, ?_, fun _ => ?_⟩
    · exact congrFun (SSERegistry.slots_markReady ..) _
    · exact congrArg Subscription.isStreaming (congrFun (SSERegistry.slots_markReady ..) _)
    · show ((h.sockets.markReady k.slot).slots k.slot).pendingBuf = _
      rw [SSERegistry.slots_markReady]
      exact (List.append_nil _).symm
    · show (h.inTable k.slot && Function.update h.asgiDone k.slot true k.slot) = true
      rw [Function.update_self, hin]
      rfl
  · exact Gains.refl k h

/-- The mark is set where the slot is of the tables. -/
theorem isDone_endOnceDrained (hin : h.inTable k.slot = true) :
    (h.endOnceDrained k.slot).isDone k.slot = true := by
  unfold WSGIHandler.endOnceDrained
  rw [if_pos hin]
  show (h.inTable k.slot && Function.update h.asgiDone k.slot true k.slot) = true
  rw [Function.update_self, hin]
  rfl

theorem gains_claimLost : Gains k h (h.claimLost k.slot).1 [] := by
  unfold WSGIHandler.claimLost
  split
  · exact Gains.refl k h
  · split
    · exact Gains.refl k h
    · exact ⟨rfl, rfl, rfl, rfl, rfl, (List.append_nil _).symm, id⟩

/-- `queue_frame` at the slot. -/
theorem gains_queueFrame (f : WsFrame) :
    Gains k h { h with sockets := (h.sockets.queueFrame k.slot NO_EVENT_ID f.encode).1 }
      (if k.takes h NO_EVENT_ID f then [f] else []) := by
  have hcap : (h.sockets.queueFrame k.slot NO_EVENT_ID f.encode).1.capacity = h.sockets.capacity := by
    rw [SSERegistry.queueFrame_eq]
    split <;> simp
  apply Gains.sockets hcap
  · rw [SSERegistry.slots_queueFrame]
    split <;> rfl
  · have hq := SSERegistry.pending_queueFrame h.sockets k.slot NO_EVENT_ID f.encode k.slot
    rw [SSERegistry.queued_queueFrame, beq_self_eq_true, Bool.and_true] at hq
    show SSERegistry.pending _ _ = _
    rw [hq]
    show _ ++ (if k.takes h NO_EVENT_ID f then [f.encode] else []).flatten = _
    cases k.takes h NO_EVENT_ID f with
    | true => simp [wire, pending, row, SSERegistry.pending]
    | false => simp [wire, pending, row, SSERegistry.pending]

theorem gains_queueSocket (f : WsFrame) :
    Gains k h (h.queueSocket k.slot f.encode) (if k.takes h NO_EVENT_ID f then [f] else []) := by
  have hqueue := gains_queueFrame (k := k) (h := h) f
  unfold WSGIHandler.queueSocket
  dsimp only
  split
  · exact hqueue
  · -- a refusal ends the socket, which puts nothing in
    have hclaim := hqueue.trans gains_claimLost
    rw [List.append_nil] at hclaim
    split
    · have hend := hclaim.trans (gains_endOnceDrained (k := k))
      rw [List.append_nil] at hend
      exact hend
    · exact hclaim

theorem gains_published {url : Bytes} {eventId : Int} {frame : Bytes}
    (hstream : (h.streams.slots k.slot).isStreaming = false) :
    Gains k h (h.published url eventId frame) (k.added h (.published url eventId frame)) := by
  have hnotify : ∀ h₁ : WSGIHandler, h₁.slots = h.slots → h₁.sockets = h.sockets →
      h₁.streamGen = h.streamGen → h₁.asgiDone = h.asgiDone →
      h₁.streams.slots k.slot = h.streams.slots k.slot →
      Gains k h
        { h₁ with sockets := (h₁.sockets.notifyFrame url eventId
            (WsFrame.encode ⟨WS_OP_TEXT, sseDataPayload frame⟩)).1 }
        (k.added h (.published url eventId frame)) := by
    intro h₁ hslots hsockets hgen hdone hrow
    refine ⟨hslots, ?_, congrFun hgen _, hrow, ?_, ?_, fun hd => ?_⟩
    · show (h₁.sockets.notifyFrame url eventId _).1.capacity = _
      rw [SSERegistry.capacity_notifyFrame, hsockets]
    · show ((h₁.sockets.notifyFrame url eventId _).1.slots k.slot).isStreaming = _
      rw [SSERegistry.slots_notifyFrame, hsockets]
      split <;> rfl
    · show SSERegistry.pending k.slot _ = _
      rw [SSERegistry.pending_notifyFrame, hsockets, SSERegistry.notified]
      show _ = k.pending h ++ wire (if _ then _ else _)
      rw [takes, Bool.and_left_comm]
      show _ ++ List.flatten (if (k.row h).filterUrl == url && (h.sockets.inRange k.slot &&
        (k.row h).takes eventId (WsFrame.encode ⟨WS_OP_TEXT, sseDataPayload frame⟩)) then _ else _) = _
      split
      · simp [wire, pending, row, SSERegistry.pending]
      · simp [wire, pending, row, SSERegistry.pending]
    · show (decide _ && _ && h₁.asgiDone k.slot) = true
      rw [hdone, hslots]
      exact hd
  -- the slot's stream row is not streaming, and takes nothing
  have hrow : ((h.streams.notifyFrame url eventId frame).1.slots k.slot) = h.streams.slots k.slot := by
    rw [SSERegistry.slots_notifyFrame, Subscription.takes, hstream]
    simp
  unfold WSGIHandler.published
  dsimp only
  split
  · exact hnotify
      { h.emit (.busFrame eventId url frame) with
        replay := h.replay.record url eventId frame
        streams := (h.streams.notifyFrame url eventId frame).1 } rfl rfl rfl rfl hrow
  · exact hnotify
      { h with
        replay := h.replay.record url eventId frame
        streams := (h.streams.notifyFrame url eventId frame).1 } rfl rfl rfl rfl hrow

/-! ## What is handed and what waits, frame by frame -/

/-- What has been handed out is `out`, and what waits is `back`. -/
structure Held (k : Socket) (h : WSGIHandler) (handed : Bytes) (out back : List WsFrame) : Prop where
  inRange : h.sockets.inRange k.slot = true
  table : h.sockets.capacity = h.slots
  gen : h.streamGen k.slot = k.gen
  notStream : (h.streams.slots k.slot).isStreaming = false
  noStreamBytes : (h.streams.slots k.slot).pendingBuf = []
  handed_eq : handed = wire out
  pending_eq : k.pending h = wire back
  short : ∀ f ∈ out ++ back, f.Short
  /-- A socket whose Close waits is marked. -/
  marked : hasClose back = true → h.isDone k.slot = true
  /-- One that was handed its Close has ended. -/
  ended : hasClose out = true → (k.row h).isStreaming = false
  idle : (k.row h).isStreaming = false → back = []

namespace Held

variable {handed : Bytes} {out back : List WsFrame}

theorem inTable (hold : Held k h handed out back) : h.inTable k.slot = true := by
  have hin := hold.inRange
  unfold SSERegistry.inRange at hin
  rw [hold.table] at hin
  exact hin

theorem genMatches (hold : Held k h handed out back) : h.genMatches k.slot k.gen = true := by
  unfold WSGIHandler.genMatches
  rw [hold.inTable, hold.gen]
  simp

theorem isSlotStreaming (hold : Held k h handed out back) :
    h.sockets.isSlotStreaming k.slot = (k.row h).isStreaming := by
  unfold SSERegistry.isSlotStreaming
  rw [hold.inRange]
  rfl

theorem closeWaits (hold : Held k h handed out back) : k.closeWaits h = hasClose back := by
  rw [Socket.closeWaits, hold.pending_eq,
    wsFrames_wire fun f hf => hold.short f (List.mem_append_right _ hf)]

/-- Frames go in behind what waits, and a Close with the mark. -/
theorem gains {added : List WsFrame} (hold : Held k h handed out back) (hg : Gains k h h' added)
    (hshort : ∀ f ∈ added, f.Short) (hopen : added ≠ [] → (k.row h).isStreaming = true)
    (hmark : hasClose added = true → h'.isDone k.slot = true) :
    Held k h' handed out (back ++ added) where
  inRange := by
    have hin := hold.inRange
    unfold SSERegistry.inRange at hin ⊢
    rw [hg.capacity]
    exact hin
  table := by rw [hg.capacity, hg.slots, hold.table]
  gen := hg.gen.trans hold.gen
  notStream := by rw [hg.stream, hold.notStream]
  noStreamBytes := by rw [hg.stream, hold.noStreamBytes]
  handed_eq := hold.handed_eq
  pending_eq := by rw [hg.pending, hold.pending_eq, wire_append]
  short f hf := by
    rw [← List.append_assoc] at hf
    rcases List.mem_append.mp hf with hold' | hnew
    · exact hold.short f hold'
    · exact hshort f hnew
  marked hclose := by
    rw [hasClose_append, Bool.or_eq_true] at hclose
    rcases hclose with hback | hadded
    · exact hg.done (hold.marked hback)
    · exact hmark hadded
  ended hclose := by rw [hg.streaming, hold.ended hclose]
  idle hnot := by
    rw [hg.streaming] at hnot
    have hnone : added = [] := Classical.byContradiction fun hne => by
      rw [hopen hne] at hnot
      cases hnot
    rw [hold.idle hnot, hnone]
    rfl

/-- A socket with nothing waiting may go. -/
theorem closed (hold : Held k h handed out []) :
    Held k { h with sockets := h.sockets.unsubscribe k.slot } handed out [] := by
  have hrow : (h.sockets.unsubscribe k.slot).slots k.slot = {} := by
    rw [SSERegistry.slots_unsubscribe, hold.inRange, beq_self_eq_true]
    rfl
  have hcap := SSERegistry.capacity_unsubscribe h.sockets k.slot
  refine { hold with
    inRange := ?_, table := hcap.trans hold.table, pending_eq := ?_, ended := fun _ => ?_,
    idle := fun _ => rfl }
  · have hin := hold.inRange
    unfold SSERegistry.inRange at hin ⊢
    rw [hcap]
    exact hin
  · show ((h.sockets.unsubscribe k.slot).slots k.slot).pendingBuf = _
    rw [hrow]
    rfl
  · show ((h.sockets.unsubscribe k.slot).slots k.slot).isStreaming = _
    rw [hrow]

end Held

theorem short_of_takes {f : WsFrame} {eventId : Int} (hop : f.opcode < 16)
    (ht : k.takes h eventId f = true) : f.Short := by
  apply short_of_length_le hop
  simp only [takes, Subscription.takes, Bool.and_eq_true] at ht
  have hroom : (k.row h).pendingBuf.length + f.encode.length ≤ 65536 := of_decide_eq_true ht.2.2
  omega

theorem streaming_of_takes {f : WsFrame} {eventId : Int} (ht : k.takes h eventId f = true) :
    (k.row h).isStreaming = true := by
  simp only [takes, Subscription.takes, Bool.and_eq_true] at ht
  exact ht.2.1.1

/-! ## One call -/

theorem call_frame (k : Socket) (h : WSGIHandler) (text : Bool) (payload : Bytes) :
    k.call h (.frame text payload) = h.socketFrame k.slot k.gen (dataFrame text payload).encode :=
  WSGIHandler.ssePeerFrame_reservedStreamUrl (by decide) h k.slot k.lane k.gen _ 0 []

theorem call_finish (k : Socket) (h : WSGIHandler) (close : Option Bytes) :
    k.call h (.finish close) = h.socketFinish k.slot k.gen (closeBytes close) :=
  WSGIHandler.ssePeerFrame_reservedStreamUrl (by decide) h k.slot k.lane k.gen _ 0 []

theorem opcode_dataFrame (text : Bool) (payload : Bytes) : (dataFrame text payload).opcode < 16 := by
  cases text with
  | true => exact (by decide : WS_OP_TEXT < 16)
  | false => exact (by decide : WS_OP_BINARY < 16)

theorem isClose_dataFrame (text : Bool) (payload : Bytes) :
    (dataFrame text payload).isClose = false := by
  cases text <;> rfl

/-- A frame that a call adds is one that the outbox takes. -/
theorem mem_added {c : Call} {f : WsFrame} (hf : f ∈ k.added h c) :
    f.opcode < 16 ∧ ∃ eventId, k.takes h eventId f = true := by
  cases c with
  | frame text payload =>
    have ⟨ht, heq⟩ : k.takes h NO_EVENT_ID (dataFrame text payload) = true ∧
        f = dataFrame text payload := by simpa [added] using hf
    rw [heq]
    exact ⟨opcode_dataFrame text payload, _, ht⟩
  | finish close =>
    cases close with
    | none => cases hf
    | some payload =>
      have ⟨ht, heq⟩ : k.takes h NO_EVENT_ID ⟨WS_OP_CLOSE, payload⟩ = true ∧
          f = ⟨WS_OP_CLOSE, payload⟩ := by simpa [added] using hf
      rw [heq]
      exact ⟨(by decide : 8 < 16), _, ht⟩
  | published url eventId frame =>
    simp only [added, List.mem_ite_nil_right, Bool.and_eq_true, List.mem_singleton] at hf
    rw [hf.2]
    exact ⟨(by decide : 1 < 16), _, hf.1.2⟩
  | message opcode payload taken =>
    simp only [added, List.mem_ite_nil_right, Bool.and_eq_true, List.mem_singleton] at hf
    rw [hf.2]
    exact ⟨by decide, _, hf.1.2⟩
  | drain => cases hf

namespace Held

variable {handed : Bytes} {out back : List WsFrame}

/-- What a call adds goes in behind what waits, and a Close with the mark. -/
theorem adds (hold : Held k h handed out back) {c : Call} (hg : Gains k h h' (k.added h c))
    (hmark : hasClose (k.added h c) = true → h'.isDone k.slot = true) :
    Held k h' handed out (back ++ k.added h c) := by
  apply hold.gains hg
  · intro f hf
    have ⟨hop, _, ht⟩ := mem_added hf
    exact short_of_takes hop ht
  · intro hne
    obtain ⟨f, hf⟩ := List.exists_mem_of_ne_nil _ hne
    have ⟨_, _, ht⟩ := mem_added hf
    exact streaming_of_takes ht
  · exact hmark

/-- Nothing is taken for a socket that has ended. -/
theorem not_takes (hnot : ¬ (k.row h).isStreaming = true) (eventId : Int) (f : WsFrame) :
    k.takes h eventId f = false :=
  Bool.eq_false_iff.mpr fun ht => hnot (streaming_of_takes ht)

/-- `w`. -/
theorem frame (hold : Held k h handed out back) (text : Bool) (payload : Bytes) :
    Held k (k.call h (.frame text payload)) handed out (back ++ k.added h (.frame text payload)) := by
  apply hold.adds
  · rw [call_frame]
    unfold WSGIHandler.socketFrame
    rw [hold.genMatches, hold.isSlotStreaming, Bool.and_true]
    split
    · exact gains_queueSocket _
    · next hnot =>
      show Gains k h h (if _ then _ else _)
      rw [not_takes hnot]
      exact Gains.refl k h
  · intro hclose
    exfalso
    revert hclose
    simp only [added]
    split
    · simp [hasClose, isClose_dataFrame]
    · simp [hasClose]

/-- What `x` puts in before it looks whether anything is pending. -/
theorem gains_finish (hold : Held k h handed out back) (close : Option Bytes) :
    Gains k h
      (if 0 < (closeBytes close).length && h.sockets.isSlotStreaming k.slot then
        h.queueSocket k.slot (closeBytes close)
      else h)
      (k.added h (.finish close)) := by
  rw [hold.isSlotStreaming]
  cases close with
  | none => exact Gains.refl k h
  | some payload =>
    have hpos : decide (0 < (closeBytes (some payload)).length) = true :=
      decide_eq_true (encode_ne_nil _)
    rw [hpos, Bool.true_and]
    split
    · exact gains_queueSocket _
    · next hnot =>
      show Gains k h h (if _ then _ else _)
      rw [not_takes hnot]
      exact Gains.refl k h

/-- The end of `x`: what waits is handed out first, and with it the Close. -/
theorem ends (hold : Held k h handed out back) {c : Call} (hg : Gains k h h' (k.added h c)) :
    Held k
      (if WSGIHandler.hasPending h'.sockets k.slot then h'.endOnceDrained k.slot
      else { h' with sockets := h'.sockets.unsubscribe k.slot })
      handed out (back ++ k.added h c) := by
  split
  · have hend := hg.trans (gains_endOnceDrained (k := k))
    rw [List.append_nil] at hend
    refine hold.adds hend fun _ => isDone_endOnceDrained ?_
    unfold WSGIHandler.inTable
    rw [hg.slots]
    exact hold.inTable
  · next hnone =>
    -- nothing waits, so nothing was taken either
    have hrange := hold.inRange
    unfold SSERegistry.inRange at hrange
    rw [WSGIHandler.hasPending, SSERegistry.inRange, hg.capacity, hrange, Bool.true_and,
      decide_eq_true_eq, Nat.not_lt, Nat.le_zero] at hnone
    have hnow := hg.pending
    rw [hold.pending_eq, ← wire_append,
      show k.pending h' = [] from List.length_eq_zero_iff.mp hnone] at hnow
    have hempty := eq_nil_of_wire_eq_nil hnow.symm
    have hold' := hold.adds hg fun hclose => by
      rw [(List.append_eq_nil_iff.mp hempty).2] at hclose
      cases hclose
    rw [hempty] at hold' ⊢
    exact hold'.closed

/-- `x`. -/
theorem finish (hold : Held k h handed out back) (close : Option Bytes) :
    Held k (k.call h (.finish close)) handed out (back ++ k.added h (.finish close)) := by
  rw [call_finish]
  unfold WSGIHandler.socketFinish
  rw [hold.genMatches, if_neg (by decide)]
  exact hold.ends (hold.gains_finish close)

end Held

/-! ## A message too big -/

theorem gains_tables (refused : Int → Bool) (closed : Int → Int) :
    Gains k h { h with wsRefused := refused, wsClosedWith := closed } [] :=
  ⟨rfl, rfl, rfl, rfl, rfl, (List.append_nil _).symm, id⟩

theorem Gains.wsCloses {frames : List WsFrame} (hg : Gains k h h' frames) (slots : List Int) :
    Gains k h { h' with wsCloses := slots } frames :=
  ⟨hg.slots, hg.capacity, hg.gen, hg.stream, hg.streaming, hg.pending, hg.done⟩

theorem gains_wsPark (opcode : UInt8) (payload : Bytes) :
    Gains k h (h.wsPark k.slot opcode payload) [] :=
  ⟨rfl, rfl, rfl, rfl, rfl, (List.append_nil _).symm, id⟩

theorem gains_sent (sent : List Sent) (wsInSent : Int → Int) :
    Gains k h { h with sent := sent, wsInSent := wsInSent } [] :=
  ⟨rfl, rfl, rfl, rfl, rfl, (List.append_nil _).symm, id⟩

/-- What a refusal does once it is noted: it queues its Close, unless the socket is marked already,
and marks it. -/
theorem gains_closeTooBig (hin : h.inTable k.slot = true) :
    let closed := if h.isDone k.slot then h
      else
        let queued := h.sockets.queueFrame k.slot NO_EVENT_ID (closeFrame WS_CLOSE_TOO_BIG)
        let h := { h with sockets := queued.1 }
        let h := if queued.2 then h.endOnceDrained k.slot else h.endSocket k.slot
        if h.poolHeld k.slot then { h with wsCloses := h.wsCloses ++ [(k.slot : Int)] } else h
    Gains k h closed
        (if !h.isDone k.slot && k.takes h NO_EVENT_ID tooBigClose then [tooBigClose] else []) ∧
      closed.isDone k.slot = true := by
  dsimp only
  cases hdone : h.isDone k.slot with
  | true =>
    -- an application's close is queued already
    exact ⟨Gains.refl k h, hdone⟩
  | false =>
    rw [if_neg Bool.false_ne_true, Bool.not_false, Bool.true_and]
    -- the Close is queued or not, and the socket ends either way
    have hend := (gains_queueFrame (k := k) (h := h) tooBigClose).trans gains_endOnceDrained
    rw [List.append_nil] at hend
    have hmark := isDone_endOnceDrained (k := k) (h := { h with
      sockets := (h.sockets.queueFrame k.slot NO_EVENT_ID tooBigClose.encode).1 }) hin
    rw [show ∀ (b : Bool) (h₁ : WSGIHandler), (if b = true then h₁.endOnceDrained k.slot
      else h₁.endSocket k.slot) = h₁.endOnceDrained k.slot from fun b _ => by cases b <;> rfl]
    split
    · exact ⟨hend.wsCloses _, hmark⟩
    · exact ⟨hend, hmark⟩

theorem gains_wsRefuseTooBig (hin : h.inTable k.slot = true) :
    Gains k h (h.wsRefuseTooBig k.slot)
        (if !h.isDone k.slot && k.takes h NO_EVENT_ID tooBigClose then [tooBigClose] else []) ∧
      (h.wsRefuseTooBig k.slot).isDone k.slot = true := by
  have htables := gains_tables (k := k) (h := h) (Function.update h.wsRefused k.slot true)
    (Function.update h.wsClosedWith k.slot WS_CLOSE_TOO_BIG)
  unfold WSGIHandler.wsRefuseTooBig
  rw [if_pos hin]
  have hclose := gains_closeTooBig (k := k) (h := { h with
    wsRefused := Function.update h.wsRefused k.slot true
    wsClosedWith := Function.update h.wsClosedWith k.slot (WS_CLOSE_TOO_BIG : Int) }) hin
  exact ⟨htables.trans hclose.1, hclose.2⟩

namespace Held

variable {handed : Bytes} {out back : List WsFrame}

/-- Nothing is added, and nothing of the socket's changes. -/
theorem same (hold : Held k h handed out back) (hg : Gains k h h' []) : Held k h' handed out back := by
  have hnew := hold.gains hg (fun _ hf => nomatch hf) (fun hne => absurd rfl hne) (fun hc => nomatch hc)
  rwa [List.append_nil] at hnew

/-- One delivery attempt: a payload past the limit is refused, and any other leaves the outbox alone. -/
theorem forward (hold : Held k h handed out back) (opcode : UInt8) (payload : Bytes) (taken : Bool)
    (hnone : (h.inTable k.slot && decide (0 < (h.wsParked k.slot).length)) = false) :
    Held k (h.wsForward k.slot opcode payload taken).1 handed out
      (back ++ k.added h (.message opcode payload taken)) := by
  have hin := hold.inTable
  -- without a refusal nothing is added
  have hkept : ∀ h', Gains k h h' [] → k.tooBig h payload = false →
      Held k h' handed out (back ++ k.added h (.message opcode payload taken)) := by
    intro h' hg hfits
    show Held k h' handed out (back ++ if k.tooBig h payload && _ && _ then _ else _)
    rw [hfits, Bool.false_and, Bool.false_and, if_neg Bool.false_ne_true, List.append_nil]
    exact hold.same hg
  unfold WSGIHandler.wsForward
  dsimp only
  split
  · -- refused already: what comes after is dropped
    next hrefused =>
    refine hkept h (Gains.refl k h) ?_
    rw [tooBig, hrefused, Bool.not_true, Bool.and_false, Bool.false_and]
  · next hrefused =>
    have hrefused' := Bool.eq_false_iff.mpr hrefused
    split
    · next hbig =>
      have htoo : k.tooBig h payload = true := by
        rw [tooBig, hnone, hrefused', hbig]
        rfl
      have ⟨hg, hmark⟩ := gains_wsRefuseTooBig (k := k) (h := h) hin
      have hadded : k.added h (.message opcode payload taken) =
          if !h.isDone k.slot && k.takes h NO_EVENT_ID tooBigClose then [tooBigClose] else [] := by
        show (if k.tooBig h payload && _ && _ then _ else _) = _
        rw [htoo, Bool.true_and]
      rw [← hadded] at hg
      exact hold.adds hg fun _ => hmark
    · next hsmall =>
      have hfits : k.tooBig h payload = false := by
        rw [tooBig, Bool.eq_false_iff.mpr hsmall, Bool.and_false]
      apply hkept _ ?_ hfits
      generalize (if h.holdLane k.slot > 0 then h.holdLane k.slot else 0) = lane
      split
      · split
        · split
          · exact Gains.refl k h
          · exact gains_sent _ h.wsInSent
        · exact Gains.refl k h
      · split
        · split
          · exact Gains.refl k h
          · split
            · exact Gains.refl k h
            · rw [show (h.emit _).inTable k.slot = true from hin, if_pos rfl]
              exact gains_sent _ _
        · split
          · exact Gains.refl k h
          · exact gains_sent _ h.wsInSent

/-- A client's message. -/
theorem message (hold : Held k h handed out back) (opcode : UInt8) (payload : Bytes) (taken : Bool) :
    Held k (k.call h (.message opcode payload taken)) handed out
      (back ++ k.added h (.message opcode payload taken)) := by
  show Held k (h.wsMessageTake k.slot opcode payload taken).1 _ _ _
  unfold WSGIHandler.wsMessageTake
  dsimp only
  split
  · -- one before it waits, and it waits behind that
    next hwaits =>
    show Held k _ handed out (back ++ if k.tooBig h payload && _ && _ then _ else _)
    rw [tooBig, hwaits, Bool.not_true, Bool.false_and, Bool.false_and, Bool.false_and,
      Bool.false_and, if_neg Bool.false_ne_true, List.append_nil]
    exact hold.same (gains_wsPark opcode payload)
  · next hnone =>
    have hforward := hold.forward opcode payload taken (Bool.eq_false_iff.mpr hnone)
    split
    · exact hforward
    · split
      · exact hforward.same (gains_wsPark opcode payload)
      · exact hforward

/-- All that waits is handed out, and the socket goes with its Close. -/
theorem emptied (hold : Held k h handed out back) (hslots : h'.slots = h.slots)
    (hcap : h'.sockets.capacity = h.sockets.capacity) (hgen : h'.streamGen k.slot = h.streamGen k.slot)
    (hstream : (h'.streams.slots k.slot).isStreaming = false)
    (hbytes : (h'.streams.slots k.slot).pendingBuf = []) (hempty : k.pending h' = [])
    (hends : hasClose (out ++ back) = true → (k.row h').isStreaming = false) :
    Held k h' (handed ++ wire back) (out ++ back) [] where
  inRange := by
    have hin := hold.inRange
    unfold SSERegistry.inRange at hin ⊢
    rw [hcap]
    exact hin
  table := by rw [hcap, hslots, hold.table]
  gen := hgen.trans hold.gen
  notStream := hstream
  noStreamBytes := hbytes
  handed_eq := by rw [hold.handed_eq, wire_append]
  pending_eq := hempty
  short f hf := hold.short f (by rwa [List.append_nil] at hf)
  marked hclose := nomatch hclose
  ended := hends
  idle _ := rfl

end Held

namespace Held

variable {handed : Bytes} {out back : List WsFrame}

theorem drained_sockets (hold : Held k h handed out back) :
    (h.sockets.drain k.slot).2 = wire back := by
  rw [SSERegistry.drained_eq, hold.inRange, if_pos rfl]
  exact hold.pending_eq

/-- The registry's drain empties the outbox, and keeps the rest of the row. -/
theorem slots_drain (hold : Held k h handed out back) :
    (h.sockets.drain k.slot).1.slots k.slot = { k.row h with pendingBuf := [] } := by
  rw [SSERegistry.slots_drain, hold.inRange, beq_self_eq_true]
  rfl

/-- With nothing waiting the mark says nothing. -/
theorem setDone (hold : Held k h handed out []) (value : Bool) :
    Held k (h.setDone k.slot value) handed out [] := by
  unfold WSGIHandler.setDone
  split
  · exact { hold with marked := fun hclose => nomatch hclose }
  · exact hold

/-- A drain. -/
theorem drain (hold : Held k h handed out back) :
    Held k (k.call h .drain) (handed ++ k.handedBy h .drain) (out ++ back) [] := by
  show Held k (h.sseDrainSlot k.slot).1 (handed ++ (h.sseDrainSlot k.slot).2) _ _
  unfold WSGIHandler.sseDrainSlot
  rw [hold.isSlotStreaming]
  split
  · next hstreaming =>
    have hcap := SSERegistry.capacity_drain h.sockets k.slot
    have hcap' := SSERegistry.capacity_unsubscribe (h.sockets.drain k.slot).1 k.slot
    have hnone : WSGIHandler.hasPending (h.sockets.drain k.slot).1 k.slot = false := by
      unfold WSGIHandler.hasPending
      rw [hold.slots_drain]
      simp
    dsimp only
    rw [hnone, hold.drained_sockets, Bool.not_false, Bool.and_true]
    split
    · -- these bytes end with the Close, if there is one
      have hrow : ((h.sockets.drain k.slot).1.unsubscribe k.slot).slots k.slot = {} := by
        have hin := hold.inRange
        unfold SSERegistry.inRange at hin
        rw [SSERegistry.slots_unsubscribe, SSERegistry.inRange, hcap, hin, beq_self_eq_true]
        rfl
      apply Held.setDone
      refine hold.emptied rfl (hcap'.trans hcap) rfl hold.notStream hold.noStreamBytes ?_ fun _ => ?_
      · show (((h.sockets.drain k.slot).1.unsubscribe k.slot).slots k.slot).pendingBuf = []
        rw [hrow]
      · show (((h.sockets.drain k.slot).1.unsubscribe k.slot).slots k.slot).isStreaming = false
        rw [hrow]
    · -- a socket that is not marked has no Close waiting, nor been handed one
      next hnot =>
      refine hold.emptied rfl hcap rfl hold.notStream hold.noStreamBytes ?_ fun hclose => ?_
      · show ((h.sockets.drain k.slot).1.slots k.slot).pendingBuf = []
        rw [hold.slots_drain]
      · rw [hasClose_append, Bool.or_eq_true] at hclose
        rcases hclose with hout | hback
        · have hended := hold.ended hout
          rw [hstreaming] at hended
          cases hended
        · exact absurd (hold.marked hback) hnot
  · next hnot =>
    -- the socket has ended, and no stream is on its slot
    have hback : back = [] := hold.idle (Bool.eq_false_iff.mpr hnot)
    have hrow : (h.streams.drain k.slot).1.slots k.slot = h.streams.slots k.slot := by
      rw [SSERegistry.slots_drain]
      split
      · rw [← hold.noStreamBytes]
      · rfl
    have hbytes : (h.streams.drain k.slot).2 = wire back := by
      rw [SSERegistry.drained_eq, hold.noStreamBytes, hback]
      split <;> rfl
    have hempty : k.pending h = [] := by
      rw [hold.pending_eq, hback]
      rfl
    dsimp only
    rw [hbytes]
    split
    · have hgone : ((h.streams.drain k.slot).1.unsubscribe k.slot).slots k.slot = {} ∨
          ((h.streams.drain k.slot).1.unsubscribe k.slot).slots k.slot = h.streams.slots k.slot := by
        rw [SSERegistry.slots_unsubscribe, hrow]
        split
        · exact Or.inl rfl
        · exact Or.inr rfl
      apply Held.setDone
      refine hold.emptied rfl rfl rfl ?_ ?_ hempty fun _ => Bool.eq_false_iff.mpr hnot
      · show (((h.streams.drain k.slot).1.unsubscribe k.slot).slots k.slot).isStreaming = false
        rcases hgone with hgone | hgone
        · rw [hgone]
        · rw [hgone, hold.notStream]
      · show (((h.streams.drain k.slot).1.unsubscribe k.slot).slots k.slot).pendingBuf = []
        rcases hgone with hgone | hgone
        · rw [hgone]
        · rw [hgone, hold.noStreamBytes]
    · refine hold.emptied rfl rfl rfl ?_ ?_ hempty fun _ => Bool.eq_false_iff.mpr hnot
      · show ((h.streams.drain k.slot).1.slots k.slot).isStreaming = false
        rw [hrow, hold.notStream]
      · show ((h.streams.drain k.slot).1.slots k.slot).pendingBuf = []
        rw [hrow, hold.noStreamBytes]

/-- The bus. -/
theorem published (hold : Held k h handed out back) (url : Bytes) (eventId : Int) (frame : Bytes) :
    Held k (k.call h (.published url eventId frame)) handed out
      (back ++ k.added h (.published url eventId frame)) := by
  apply hold.adds (gains_published hold.notStream)
  intro hclose
  exfalso
  revert hclose
  simp only [added]
  split
  · simp [hasClose, WsFrame.isClose, WS_OP_TEXT, WS_OP_CLOSE]
  · simp [hasClose]

/-- **Every call adds its frames behind those that there were, and keeps the account.** -/
theorem step (hold : Held k h handed out back) (c : Call) :
    ∃ out' back', Held k (k.call h c) (handed ++ k.handedBy h c) out' back' ∧
      out' ++ back' = out ++ back ++ k.added h c := by
  have hsame : ∀ back', Held k (k.call h c) handed out (back ++ back') →
      k.handedBy h c = [] → back' = k.added h c →
      ∃ out' back', Held k (k.call h c) (handed ++ k.handedBy h c) out' back' ∧
        out' ++ back' = out ++ back ++ k.added h c := by
    intro back' hnew hnone heq
    rw [hnone, List.append_nil, ← heq, List.append_assoc]
    exact ⟨out, back ++ back', hnew, rfl⟩
  cases c with
  | frame text payload => exact hsame _ (hold.frame text payload) rfl rfl
  | finish close => exact hsame _ (hold.finish close) rfl rfl
  | published url eventId frame => exact hsame _ (hold.published url eventId frame) rfl rfl
  | message opcode payload taken => exact hsame _ (hold.message opcode payload taken) rfl rfl
  | drain => exact ⟨out ++ back, [], hold.drain, rfl⟩

end Held

/-! ## Where a socket begins -/

theorem idle_new {slots : Nat} (hlt : k.slot < slots) (replayFrames : Int)
    (sharedId asgiNotify abortPool : Bool) (poolFd : Int → Bool) :
    k.Idle (WSGIHandler.new slots replayFrames sharedId asgiNotify abortPool poolFd) where
  lt := hlt
  table := rfl
  notSocket := rfl
  empty := rfl
  notDone := Bool.and_false _
  notStream := rfl
  noStreamBytes := rfl

namespace Idle

theorem inTable (hi : k.Idle h) : h.inTable k.slot = true := by
  have hlt := hi.lt
  simp only [WSGIHandler.inTable, Bool.and_eq_true, decide_eq_true_eq]
  omega

theorem row_subscribe (hi : k.Idle h) (url : Bytes) (lastEventId : Int) :
    (h.sockets.subscribe k.slot url lastEventId).slots k.slot =
      { k.row h with isStreaming := true, filterUrl := url, lastEventId := lastEventId } := by
  have hin := hi.inTable
  unfold WSGIHandler.inTable at hin
  rw [SSERegistry.slots_subscribe, SSERegistry.inRange, hi.table, hin, beq_self_eq_true]
  rfl

theorem isSlotStreaming_subscribe (hi : k.Idle h) (url : Bytes) (lastEventId : Int) :
    (h.sockets.subscribe k.slot url lastEventId).isSlotStreaming k.slot = true := by
  have hin := hi.inTable
  unfold WSGIHandler.inTable at hin
  unfold SSERegistry.isSlotStreaming SSERegistry.inRange
  rw [SSERegistry.capacity_subscribe, hi.table, hin, hi.row_subscribe]
  rfl

/-- A handler whose sockets have taken the slot, and that has marked it with the generation. -/
theorem opened (hi : k.Idle h) {url : Bytes} {lastEventId : Int} (hslots : h'.slots = h.slots)
    (hsockets : h'.sockets = h.sockets.subscribe k.slot url lastEventId)
    (hstreams : h'.streams = h.streams) (hdone : h'.isDone k.slot = false)
    (hgen : h'.streamGen k.slot = k.gen) : k.Opened h' := by
  refine ⟨?_, ?_, hdone, hgen, ?_, ?_, ?_⟩
  · rw [hsockets]
    exact hi.isSlotStreaming_subscribe url lastEventId
  · show (h'.sockets.slots k.slot).pendingBuf = []
    rw [hsockets, hi.row_subscribe url lastEventId]
    exact hi.empty
  · rw [hsockets, SSERegistry.capacity_subscribe, hi.table, hslots]
  · rw [hstreams, hi.notStream]
  · rw [hstreams, hi.noStreamBytes]

/-- `B`. -/
theorem opened_beginSocket (hi : k.Idle h) (url : Bytes) :
    k.Opened (h.beginSocket k.slot url k.gen) := by
  have hin := hi.inTable
  unfold WSGIHandler.beginSocket WSGIHandler.resetInbound
  dsimp only
  rw [WSGIHandler.setDone_eq (by exact hin), WSGIHandler.setExecLane_eq (by exact hin),
    WSGIHandler.clearLost_eq (by exact hin), WSGIHandler.setStreamGen_eq (by exact hin),
    if_pos (by exact hin)]
  have hdone : (h.inTable k.slot && Function.update h.asgiDone k.slot false k.slot) = false := by
    rw [Function.update_self, Bool.and_false]
  split
  · exact hi.opened rfl rfl rfl hdone (Function.update_self ..)
  · exact hi.opened rfl rfl rfl hdone (Function.update_self ..)

end Idle

/-! ## A run -/

theorem Opened.held (ho : k.Opened h) : Held k h [] [] [] where
  inRange := by
    have hstreaming := ho.streaming
    unfold SSERegistry.isSlotStreaming at hstreaming
    cases hin : h.sockets.inRange k.slot with
    | true => rfl
    | false =>
      rw [hin] at hstreaming
      cases hstreaming
  table := ho.table
  gen := ho.gen
  notStream := ho.notStream
  noStreamBytes := ho.noStreamBytes
  handed_eq := rfl
  pending_eq := ho.empty
  short _ hf := nomatch hf
  marked hclose := nomatch hclose
  ended hclose := nomatch hclose
  idle _ := rfl

/-- **A call leaves the Close the last frame exactly when it is clear.** -/
theorem Held.closeEnds_step {handed : Bytes} {out back : List WsFrame} (hold : Held k h handed out back)
    (c : Call) :
    closeEnds (out ++ back ++ k.added h c) = (closeEnds (out ++ back) && k.clear h c) := by
  rcases List.eq_nil_or_concat (k.added h c) with hnone | ⟨as, f, hsome⟩
  · have hclear : k.clear h c = true := by
      cases c with
      | message => rfl
      | drain => rfl
      | _ =>
        show ((k.added h _).isEmpty || !k.closeWaits h) = true
        rw [hnone]
        rfl
    rw [hnone, List.append_nil, hclear, Bool.and_true]
  · -- a call adds one frame at most
    have has : as = [] := by
      have hlen : (k.added h c).length ≤ 1 := by
        unfold added
        split <;> first | exact Nat.zero_le 1 | (split <;> simp)
      rw [hsome, List.concat_eq_append, List.length_append, List.length_singleton] at hlen
      exact List.length_eq_zero_iff.mp (by omega)
    rw [has, List.concat_eq_append, List.nil_append] at hsome
    have hmem : f ∈ k.added h c := by
      rw [hsome]
      exact List.mem_cons_self
    have ⟨_, _, ht⟩ := mem_added hmem
    -- the frame was taken, so the socket had not been handed its Close
    have hout : hasClose out = false := Bool.eq_false_iff.mpr fun hclose => by
      have hended := hold.ended hclose
      rw [streaming_of_takes ht] at hended
      cases hended
    have hback : hasClose (out ++ back) = hasClose back := by
      rw [hasClose_append, hout, Bool.false_or]
    have hclear : k.clear h c = !hasClose back := by
      cases c with
      | message opcode payload taken =>
        -- the refusal itself looks at the mark
        have hdone : h.isDone k.slot = false := by
          simp only [added, List.mem_ite_nil_right, Bool.and_eq_true, Bool.not_eq_true'] at hmem
          exact hmem.1.1.2
        have hno : hasClose back = false := Bool.eq_false_iff.mpr fun hclose => by
          rw [hold.marked hclose] at hdone
          cases hdone
        rw [hno]
        rfl
      | drain => cases hmem
      | _ =>
        show ((k.added h _).isEmpty || !k.closeWaits h) = _
        rw [hsome, hold.closeWaits]
        rfl
    rw [hsome, closeEnds_append_singleton, hback, hclear]
    cases hno : hasClose back with
    | true => rw [Bool.not_true, Bool.and_false]
    | false =>
      rw [closeEnds_of_not_hasClose (hback.trans hno)]
      rfl

theorem run_append (h : WSGIHandler) (cs ds : List Call) :
    k.run h (cs ++ ds) =
      ds.foldl (fun s c => (k.call s.1 c, s.2 ++ k.handedBy s.1 c)) (k.run h cs) :=
  List.foldl_append

/-- **The account behind a run**, and the Close last in it exactly when every call was clear. -/
theorem Held.run {out back : List WsFrame} {handed : Bytes} (hold : Held k h handed out back)
    (cs : List Call) :
    ∃ out' back',
      Held k (cs.foldl (fun s c => (k.call s.1 c, s.2 ++ k.handedBy s.1 c)) (h, handed)).1
        (cs.foldl (fun s c => (k.call s.1 c, s.2 ++ k.handedBy s.1 c)) (h, handed)).2 out' back' ∧
      closeEnds (out' ++ back') = (closeEnds (out ++ back) && k.clearThroughout h cs) := by
  induction cs generalizing h handed out back with
  | nil => exact ⟨out, back, hold, (Bool.and_true _).symm⟩
  | cons c cs ih =>
    have ⟨out₁, back₁, hold₁, heq⟩ := hold.step c
    have ⟨out₂, back₂, hold₂, hends⟩ := ih hold₁
    refine ⟨out₂, back₂, hold₂, ?_⟩
    rw [hends, heq, hold.closeEnds_step, clearThroughout, Bool.and_assoc]

/-- **A run of clear calls hands out at most one Close, with no frame behind it; one with a call that
is not clear does not, once what it leaves has been drained.** -/
theorem closeEnds_iff_clear (ho : k.Opened h) (cs : List Call) :
    (k.clearThroughout h cs = true → closeEnds (wsFrames (k.run h cs).2) = true) ∧
      (closeEnds (wsFrames (k.run h (cs ++ [Call.drain])).2) = true ↔ k.clearThroughout h cs = true) := by
  have ⟨out, back, hold, hends⟩ := ho.held.run cs
  have hends' : closeEnds (out ++ back) = k.clearThroughout h cs := hends.trans (Bool.true_and _)
  constructor
  · intro hclear
    have hread : wsFrames (k.run h cs).2 = out := by
      rw [show (k.run h cs).2 = wire out from hold.handed_eq]
      exact wsFrames_wire fun f hf => hold.short f (List.mem_append_left _ hf)
    rw [hread]
    exact closeEnds_of_append (hends'.trans hclear)
  · have hdrained := hold.drain
    have hread : wsFrames (k.run h (cs ++ [Call.drain])).2 = out ++ back := by
      rw [run_append]
      show wsFrames ((k.run h cs).2 ++ k.handedBy (k.run h cs).1 .drain) = _
      rw [show (k.run h cs).2 ++ k.handedBy (k.run h cs).1 .drain = wire (out ++ back) from
        hdrained.handed_eq]
      exact wsFrames_wire fun f hf => hold.short f hf
    rw [hread, hends']

/-- The first socket of a handler of one slot. -/
def first : Socket := ⟨0, -1, 7⟩

def firstOpened : WSGIHandler :=
  (WSGIHandler.new 1 0 false true true fun _ => false).beginSocket 0 [] 7

theorem opened_first : first.Opened firstOpened :=
  (idle_new (k := first) (by decide) 0 false true true fun _ => false).opened_beginSocket []

theorem closeEnds_iff_clear_first :
    closeEnds (wsFrames
      (first.run firstOpened [.frame true [0x68], .finish (some [3, 232]), .drain]).2) = true :=
  (closeEnds_iff_clear opened_first _).1 (by decide)

/-- A message behind the application's own Close is handed to the client. -/
theorem not_closeEnds :
    first.Opened firstOpened ∧ closeEnds (wsFrames
      (first.run firstOpened [.finish (some [3, 232]), .frame true [0x68], .drain]).2) = false :=
  ⟨opened_first, by decide⟩

end Socket

end MojoHttp
