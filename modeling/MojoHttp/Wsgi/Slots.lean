import MojoHttp.Wsgi.ChannelNames
import MojoHttp.Sse.Subscriptions

/-!
# What a frame does to its slot (`handler.mojo`)

`Slot` is what the frames of producers, the holds, the drains and the disconnects can touch of a
connection slot, and what each of them makes of it.

* **`WSGIHandler.Acts`** — the handler's branches act on the slot they are for, as `Slot` says, and on
  no other.
-/

namespace MojoHttp

/-- What becomes of a piece. -/
inductive Verdict where
  | queued
  /-- The outbox is full. -/
  | refused
  /-- The slot is not the stream's, or not subscribed. -/
  | dropped
  deriving Repr, DecidableEq

/-- What the handler keeps of a slot that the frames for it touch. -/
structure Slot where
  stream : Subscription
  socket : Subscription
  gen : Int
  done : Bool
  lost : Bool

namespace Slot

/-- The slot in the registry of sockets, or in that of streams. -/
def row (v : Slot) : (socket : Bool) → Subscription
  | true => v.socket
  | false => v.stream

def setRow (v : Slot) (row : Subscription) : (socket : Bool) → Slot
  | true => { v with socket := row }
  | false => { v with stream := row }

def begin (v : Slot) (socket : Bool) (url : Bytes) (gen : Int) : Slot :=
  { v.setRow { v.row socket with
      isStreaming := true, filterUrl := url, lastEventId := NO_EVENT_ID } socket with
    gen := gen, done := false, lost := false }

def hold (v : Slot) (socket : Bool) (row : Subscription) : Slot :=
  { v.setRow row socket with gen := STREAM_GEN_HELD, lost := false }

def verdict (v : Slot) (socket : Bool) (gen : Int) (frame : Bytes) : Verdict :=
  if (v.row socket).isStreaming && v.gen == gen then
    if (v.row socket).takes NO_EVENT_ID frame then .queued else .refused
  else .dropped

/-- A refusal ends a socket, once. -/
def piece (v : Slot) (socket : Bool) (gen : Int) (frame : Bytes) : Slot :=
  match v.verdict socket gen frame with
  | .queued => v.setRow ((v.row socket).queue NO_EVENT_ID frame) socket
  | .refused => if v.lost then v else { v with lost := true, done := v.done || socket }
  | .dropped => v

def finish (v : Slot) (socket : Bool) (gen : Int) : Slot :=
  if v.gen != gen then v
  else if 0 < (v.row socket).pendingBuf.length then { v with done := true }
  else v.setRow {} socket

/-- `x`, with its Close frame. -/
def socketFinish (v : Slot) (gen : Int) (frame : Bytes) : Slot :=
  (if frame.isEmpty then v else v.piece true gen frame).finish true gen

def drain (v : Slot) : Slot × Bytes :=
  let socket := v.socket.isStreaming
  let drained := v.setRow { v.row socket with pendingBuf := [] } socket
  (if v.done then { drained.setRow {} socket with done := false } else drained,
    (v.row socket).pendingBuf)

def disconnected : Slot := ⟨{}, {}, STREAM_GEN_NONE, false, false⟩

variable {v : Slot} {socket : Bool} {gen : Int}

@[simp] theorem row_setRow (v : Slot) (row : Subscription) (socket : Bool) :
    (v.setRow row socket).row socket = row := by
  cases socket <;> rfl

@[simp] theorem row_setRow_not (v : Slot) (row : Subscription) (socket : Bool) :
    (v.setRow row socket).row (!socket) = v.row (!socket) := by
  cases socket <;> rfl

@[simp] theorem done_setRow (v : Slot) (row : Subscription) (socket : Bool) :
    (v.setRow row socket).done = v.done := by
  cases socket <;> rfl

@[simp] theorem gen_setRow (v : Slot) (row : Subscription) (socket : Bool) :
    (v.setRow row socket).gen = v.gen := by
  cases socket <;> rfl

theorem finish_of_ne (hgen : v.gen ≠ gen) : v.finish socket gen = v := if_pos (bne_iff_ne.mpr hgen)

theorem finish_of_pending (socket : Bool) (hgen : v.gen = gen)
    (hpending : 0 < (v.row socket).pendingBuf.length) : v.finish socket gen = { v with done := true } := by
  unfold finish
  rw [if_neg (fun hne => bne_iff_ne.mp hne hgen), if_pos hpending]

theorem finish_of_empty (socket : Bool) (hgen : v.gen = gen)
    (hempty : ¬ 0 < (v.row socket).pendingBuf.length) : v.finish socket gen = v.setRow {} socket := by
  unfold finish
  rw [if_neg (fun hne => bne_iff_ne.mp hne hgen), if_neg hempty]

/-- A piece for the stream that the slot is subscribed to. -/
theorem piece_of_mine (socket : Bool) (hmine : ((v.row socket).isStreaming && v.gen == gen) = true)
    (frame : Bytes) :
    v.piece socket gen frame =
      if (v.row socket).takes NO_EVENT_ID frame then
        v.setRow ((v.row socket).queue NO_EVENT_ID frame) socket
      else if v.lost then v
      else { v with lost := true, done := v.done || socket } := by
  unfold piece verdict
  rw [if_pos hmine]
  split
  · next heq =>
    split at heq
    · next htakes => rw [if_pos htakes]
    · cases heq
  · next heq =>
    split at heq
    · cases heq
    · next htakes => rw [if_neg htakes]
  · next heq => split at heq <;> cases heq

theorem piece_of_other (socket : Bool) (hother : ((v.row socket).isStreaming && v.gen == gen) = false)
    (frame : Bytes) : v.piece socket gen frame = v := by
  unfold piece verdict
  rw [hother, if_neg (by decide)]

theorem drain_eq (hsocket : v.socket.isStreaming = socket) :
    v.drain =
      (if v.done then { v.setRow {} socket with done := false }
        else v.setRow { v.row socket with pendingBuf := [] } socket, (v.row socket).pendingBuf) := by
  subst hsocket
  unfold drain
  dsimp only
  cases v.socket.isStreaming with
  | true => rfl
  | false => rfl

theorem gen_finish (v : Slot) (socket : Bool) (gen : Int) : (v.finish socket gen).gen = v.gen := by
  unfold finish
  split
  · rfl
  · split
    · rfl
    · exact gen_setRow ..

theorem gen_drain (v : Slot) : v.drain.1.gen = v.gen := by
  rw [drain_eq rfl]
  split
  · exact gen_setRow ..
  · exact gen_setRow ..

theorem done_drain (v : Slot) : v.drain.1.done = false := by
  rw [drain_eq rfl]
  split
  · rfl
  · next hdone => exact (done_setRow ..).trans (Bool.eq_false_iff.mpr hdone)

theorem gen_piece (v : Slot) (socket : Bool) (gen : Int) (frame : Bytes) :
    (v.piece socket gen frame).gen = v.gen := by
  unfold piece
  split
  · exact gen_setRow ..
  · split <;> rfl
  · rfl

theorem gen_socketFinish (v : Slot) (gen : Int) (frame : Bytes) :
    (v.socketFinish gen frame).gen = v.gen := by
  unfold socketFinish
  rw [gen_finish]
  split
  · rfl
  · exact gen_piece ..

theorem socketFinish_of_ne (hgen : v.gen ≠ gen) (frame : Bytes) : v.socketFinish gen frame = v := by
  unfold socketFinish
  rw [piece_of_other true (by rw [beq_false_of_ne hgen, Bool.and_false]) frame, ite_self,
    finish_of_ne hgen]

end Slot

/-! ## What a frame does to its slot -/

namespace WSGIHandler

def view (h : WSGIHandler) (slot : Int) : Slot :=
  ⟨h.streams.slots slot, h.sockets.slots slot, h.streamGen slot, h.asgiDone slot, h.streamLost slot⟩

/-- The tables and the registries are of one length. -/
structure Shaped (h : WSGIHandler) : Prop where
  streams : h.streams.capacity = h.slots
  sockets : h.sockets.capacity = h.slots

/-- The handler acts on one slot, if it has it. -/
structure Acts (h h' : WSGIHandler) (slot : Int) (f : Slot → Slot) : Prop where
  slots : h'.slots = h.slots
  streams : h'.streams.capacity = h.streams.capacity
  sockets : h'.sockets.capacity = h.sockets.capacity
  self : h.inTable slot = true → h'.view slot = f (h.view slot)
  other : ∀ s, s ≠ slot ∨ h.inTable slot = false → h'.view s = h.view s

variable {h h' h'' : WSGIHandler} {slot : Int} {f g : Slot → Slot}

theorem Shaped.inRange_streams (hs : h.Shaped) (slot : Int) : h.streams.inRange slot = h.inTable slot := by
  unfold SSERegistry.inRange inTable
  rw [hs.streams]

theorem Shaped.inRange_sockets (hs : h.Shaped) (slot : Int) : h.sockets.inRange slot = h.inTable slot := by
  unfold SSERegistry.inRange inTable
  rw [hs.sockets]

theorem Shaped.acts (hs : h.Shaped) (ha : Acts h h' slot f) : h'.Shaped :=
  ⟨by rw [ha.streams, ha.slots, hs.streams], by rw [ha.sockets, ha.slots, hs.sockets]⟩

theorem Acts.inTable (ha : Acts h h' slot f) (s : Int) : h'.inTable s = h.inTable s := by
  unfold WSGIHandler.inTable
  rw [ha.slots]

theorem Acts.nothing (h : WSGIHandler) (slot : Int) : Acts h h slot id :=
  ⟨rfl, rfl, rfl, fun _ => rfl, fun _ _ => rfl⟩

theorem Acts.trans (ha : Acts h h' slot f) (hb : Acts h' h'' slot g) :
    Acts h h'' slot (fun v => g (f v)) where
  slots := hb.slots.trans ha.slots
  streams := hb.streams.trans ha.streams
  sockets := hb.sockets.trans ha.sockets
  self hin := by rw [hb.self (by rw [ha.inTable, hin]), ha.self hin]
  other s hs := by
    have hs' : s ≠ slot ∨ h'.inTable slot = false := by rwa [ha.inTable]
    rw [hb.other s hs', ha.other s hs]

/-- As another function that agrees on the slot as it is. -/
theorem Acts.congr (ha : Acts h h' slot f) (hfg : h.inTable slot = true → f (h.view slot) = g (h.view slot)) :
    Acts h h' slot g :=
  { ha with self := fun hin => (ha.self hin).trans (hfg hin) }

/-- Nothing of the slots changes. -/
theorem Acts.same (hslots : h'.slots = h.slots) (hstreams : h'.streams = h.streams)
    (hsockets : h'.sockets = h.sockets) (hgen : h'.streamGen = h.streamGen)
    (hdone : h'.asgiDone = h.asgiDone) (hlost : h'.streamLost = h.streamLost) (slot : Int) :
    Acts h h' slot id := by
  have hview : ∀ s, h'.view s = h.view s := by
    intro s
    unfold view
    rw [hstreams, hsockets, hgen, hdone, hlost]
  exact ⟨hslots, by rw [hstreams], by rw [hsockets], fun _ => hview slot, fun s _ => hview s⟩

/-- Another registry of streams, but for one slot the same. -/
theorem Acts.setStreams {r : SSERegistry} (row : Subscription) (hcap : r.capacity = h.streams.capacity)
    (hself : h.inTable slot = true → r.slots slot = row)
    (hother : ∀ s, s ≠ slot ∨ h.inTable slot = false → r.slots s = h.streams.slots s) :
    Acts h { h with streams := r } slot fun v => { v with stream := row } where
  slots := rfl
  streams := hcap
  sockets := rfl
  self hin := by
    unfold view
    rw [← hself hin]
  other s hs := by
    unfold view
    rw [← hother s hs]

/-- Another registry of sockets, but for one slot the same. -/
theorem Acts.setSockets {r : SSERegistry} (row : Subscription) (hcap : r.capacity = h.sockets.capacity)
    (hself : h.inTable slot = true → r.slots slot = row)
    (hother : ∀ s, s ≠ slot ∨ h.inTable slot = false → r.slots s = h.sockets.slots s) :
    Acts h { h with sockets := r } slot fun v => { v with socket := row } where
  slots := rfl
  streams := rfl
  sockets := hcap
  self hin := by
    unfold view
    rw [← hself hin]
  other s hs := by
    unfold view
    rw [← hother s hs]

/-! ### The tables -/

theorem acts_setDone (h : WSGIHandler) (slot : Int) (value : Bool) :
    Acts h (h.setDone slot value) slot fun v => { v with done := value } := by
  unfold setDone
  split
  · next hin =>
    refine ⟨rfl, rfl, rfl, fun _ => ?_, fun s hs => ?_⟩
    · simp [view]
    · rcases hs with hne | hout
      · simp [view, Function.update_of_ne hne]
      · exact nomatch hin.symm.trans hout
  · next hout => exact (Acts.nothing h slot).congr fun hin => absurd hin hout

theorem acts_clearLost (h : WSGIHandler) (slot : Int) :
    Acts h (h.clearLost slot) slot fun v => { v with lost := false } := by
  unfold clearLost
  split
  · next hin =>
    refine ⟨rfl, rfl, rfl, fun _ => ?_, fun s hs => ?_⟩
    · simp [view]
    · rcases hs with hne | hout
      · simp [view, Function.update_of_ne hne]
      · exact nomatch hin.symm.trans hout
  · next hout => exact (Acts.nothing h slot).congr fun hin => absurd hin hout

theorem acts_setStreamGen (h : WSGIHandler) (slot gen : Int) :
    Acts h (h.setStreamGen slot gen) slot fun v => { v with gen := gen } := by
  unfold setStreamGen
  split
  · next hin =>
    refine ⟨rfl, rfl, rfl, fun _ => ?_, fun s hs => ?_⟩
    · simp [view]
    · rcases hs with hne | hout
      · simp [view, Function.update_of_ne hne]
      · exact nomatch hin.symm.trans hout
  · next hout => exact (Acts.nothing h slot).congr fun hin => absurd hin hout

theorem acts_setExecLane (h : WSGIHandler) (slot lane : Int) : Acts h (h.setExecLane slot lane) slot id := by
  unfold setExecLane
  split
  · apply Acts.same
    all_goals rfl
  · exact Acts.nothing h slot

theorem acts_setHoldLane (h : WSGIHandler) (slot lane : Int) : Acts h (h.setHoldLane slot lane) slot id := by
  unfold setHoldLane
  split
  · apply Acts.same
    all_goals rfl
  · exact Acts.nothing h slot

theorem acts_resetInbound (h : WSGIHandler) (slot : Int) : Acts h (h.resetInbound slot) slot id := by
  unfold resetInbound
  dsimp only
  split
  · split
    · apply Acts.same
      all_goals rfl
    · apply Acts.same
      all_goals rfl
  · exact Acts.nothing h slot

/-! ### The registries -/

theorem acts_subscribeStream (hs : h.Shaped) (slot : Int) (url : Bytes) (lastId : Int) :
    Acts h { h with streams := h.streams.subscribe slot url lastId } slot fun v =>
      { v with stream := { v.stream with isStreaming := true, filterUrl := url, lastEventId := lastId } } := by
  refine (Acts.setStreams { h.streams.slots slot with
    isStreaming := true, filterUrl := url, lastEventId := lastId } (SSERegistry.capacity_subscribe ..)
    (fun hin => ?_) fun s hne => ?_).congr fun _ => rfl
  · rw [SSERegistry.slots_subscribe, hs.inRange_streams, hin]
    simp
  · rw [SSERegistry.slots_subscribe, hs.inRange_streams]
    rcases hne with hne | hout
    · simp [hne]
    · simp [hout]

theorem acts_subscribeSocket (hs : h.Shaped) (slot : Int) (url : Bytes) (lastId : Int) :
    Acts h { h with sockets := h.sockets.subscribe slot url lastId } slot fun v =>
      { v with socket := { v.socket with isStreaming := true, filterUrl := url, lastEventId := lastId } } := by
  refine (Acts.setSockets { h.sockets.slots slot with
    isStreaming := true, filterUrl := url, lastEventId := lastId } (SSERegistry.capacity_subscribe ..)
    (fun hin => ?_) fun s hne => ?_).congr fun _ => rfl
  · rw [SSERegistry.slots_subscribe, hs.inRange_sockets, hin]
    simp
  · rw [SSERegistry.slots_subscribe, hs.inRange_sockets]
    rcases hne with hne | hout
    · simp [hne]
    · simp [hout]

theorem acts_unsubscribeStream (hs : h.Shaped) (slot : Int) :
    Acts h { h with streams := h.streams.unsubscribe slot } slot fun v => { v with stream := {} } := by
  refine Acts.setStreams {} (SSERegistry.capacity_unsubscribe ..) (fun hin => ?_) fun s hne => ?_
  · rw [SSERegistry.slots_unsubscribe, hs.inRange_streams, hin]
    simp
  · rw [SSERegistry.slots_unsubscribe, hs.inRange_streams]
    rcases hne with hne | hout
    · simp [hne]
    · simp [hout]

theorem acts_unsubscribeSocket (hs : h.Shaped) (slot : Int) :
    Acts h { h with sockets := h.sockets.unsubscribe slot } slot fun v => { v with socket := {} } := by
  refine Acts.setSockets {} (SSERegistry.capacity_unsubscribe ..) (fun hin => ?_) fun s hne => ?_
  · rw [SSERegistry.slots_unsubscribe, hs.inRange_sockets, hin]
    simp
  · rw [SSERegistry.slots_unsubscribe, hs.inRange_sockets]
    rcases hne with hne | hout
    · simp [hne]
    · simp [hout]

theorem acts_endOnceDrained (h : WSGIHandler) (slot : Int) :
    Acts h (h.endOnceDrained slot) slot fun v => { v with done := true } := by
  unfold endOnceDrained
  split
  · next hin =>
    refine ⟨rfl, SSERegistry.capacity_markReady .., SSERegistry.capacity_markReady .., fun _ => ?_,
      fun s hs => ?_⟩
    · simp [view]
    · rcases hs with hne | hout
      · simp [view, Function.update_of_ne hne]
      · exact nomatch hin.symm.trans hout
  · next hout => exact (Acts.nothing h slot).congr fun hin => absurd hin hout

theorem acts_queueStream (hs : h.Shaped) (slot : Int) (frame : Bytes) :
    Acts h { h with streams := (h.streams.queueFrame slot NO_EVENT_ID frame).1 } slot fun v =>
      if v.stream.takes NO_EVENT_ID frame then { v with stream := v.stream.queue NO_EVENT_ID frame }
      else v := by
  have hcap : (h.streams.queueFrame slot NO_EVENT_ID frame).1.capacity = h.streams.capacity := by
    rw [SSERegistry.queueFrame_eq]
    split
    · exact SSERegistry.capacity_enqueue ..
    · rfl
  refine (Acts.setStreams (if (h.streams.slots slot).takes NO_EVENT_ID frame then
    (h.streams.slots slot).queue NO_EVENT_ID frame else h.streams.slots slot) hcap
    (fun hin => ?_) fun s hne => ?_).congr fun _ => ?_
  · rw [SSERegistry.slots_queueFrame, hs.inRange_streams, hin]
    simp
  · rw [SSERegistry.slots_queueFrame, hs.inRange_streams]
    rcases hne with hne | hout
    · simp [hne]
    · simp [hout]
  · show (_ : Slot) = if (h.streams.slots slot).takes NO_EVENT_ID frame then _ else _
    split
    · rfl
    · rfl

theorem acts_queueSocketFrame (hs : h.Shaped) (slot : Int) (frame : Bytes) :
    Acts h { h with sockets := (h.sockets.queueFrame slot NO_EVENT_ID frame).1 } slot fun v =>
      if v.socket.takes NO_EVENT_ID frame then { v with socket := v.socket.queue NO_EVENT_ID frame }
      else v := by
  have hcap : (h.sockets.queueFrame slot NO_EVENT_ID frame).1.capacity = h.sockets.capacity := by
    rw [SSERegistry.queueFrame_eq]
    split
    · exact SSERegistry.capacity_enqueue ..
    · rfl
  refine (Acts.setSockets (if (h.sockets.slots slot).takes NO_EVENT_ID frame then
    (h.sockets.slots slot).queue NO_EVENT_ID frame else h.sockets.slots slot) hcap
    (fun hin => ?_) fun s hne => ?_).congr fun _ => ?_
  · rw [SSERegistry.slots_queueFrame, hs.inRange_sockets, hin]
    simp
  · rw [SSERegistry.slots_queueFrame, hs.inRange_sockets]
    rcases hne with hne | hout
    · simp [hne]
    · simp [hout]
  · show (_ : Slot) = if (h.sockets.slots slot).takes NO_EVENT_ID frame then _ else _
    split
    · rfl
    · rfl

theorem acts_claimLost (h : WSGIHandler) (slot : Int) :
    Acts h (h.claimLost slot).1 slot (fun v => { v with lost := true }) ∧
      ((h.claimLost slot).2 = (h.inTable slot && !h.streamLost slot)) := by
  unfold claimLost
  cases hin : h.inTable slot with
  | false => exact ⟨(Acts.nothing h slot).congr fun hyes => (nomatch hin.symm.trans hyes), rfl⟩
  | true =>
    cases hlost : h.streamLost slot with
    | true =>
      refine ⟨(Acts.nothing h slot).congr fun _ => ?_, rfl⟩
      show h.view slot = { h.view slot with lost := true }
      rw [← hlost]
      rfl
    | false =>
      refine ⟨⟨rfl, rfl, rfl, fun _ => ?_, fun s hne => ?_⟩, rfl⟩
      · simp [view]
      · rcases hne with hne | hout
        · simp [view, Function.update_of_ne hne]
        · exact nomatch hin.symm.trans hout

theorem acts_abortStream (h : WSGIHandler) (slot gen : Int) : Acts h (h.abortStream slot gen) slot id := by
  unfold abortStream
  split
  · exact Acts.nothing h slot
  · apply Acts.same
    all_goals rfl

/-! ### The frames of a producer -/

theorem acts_beginStream (hs : h.Shaped) (slot : Int) (url : Bytes) (gen : Int) (executor : Bool) :
    Acts h (h.beginStream slot url gen executor) slot fun v => v.begin false url gen := by
  have hopened := (acts_subscribeStream hs slot url NO_EVENT_ID).trans (acts_setDone _ slot false)
  have hrest : ∀ {h₁ : WSGIHandler} {f : Slot → Slot}, Acts h h₁ slot f →
      Acts h ((h₁.clearLost slot).setStreamGen slot gen) slot fun v =>
        { f v with lost := false, gen := gen } := fun ha =>
    (ha.trans (acts_clearLost _ slot)).trans (acts_setStreamGen _ slot gen)
  cases executor with
  | true => exact hrest (hopened.trans (acts_setExecLane _ slot (parseStreamLane url)))
  | false => exact hrest hopened

theorem acts_beginSocket (hs : h.Shaped) (slot : Int) (url : Bytes) (gen : Int) :
    Acts h (h.beginSocket slot url gen) slot fun v => v.begin true url gen :=
  (((((acts_subscribeSocket hs slot url NO_EVENT_ID).trans (acts_setDone _ slot false)).trans
    (acts_setExecLane _ slot (parseStreamLane url))).trans (acts_clearLost _ slot)).trans
      (acts_setStreamGen _ slot gen)).trans (acts_resetInbound _ slot)

theorem Shaped.isSlotStreaming_streams (hs : h.Shaped) (slot : Int) :
    h.streams.isSlotStreaming slot = (h.inTable slot && (h.view slot).stream.isStreaming) := by
  unfold SSERegistry.isSlotStreaming
  rw [hs.inRange_streams]
  cases h.inTable slot with
  | true => rfl
  | false => rfl

theorem Shaped.isSlotStreaming_sockets (hs : h.Shaped) (slot : Int) :
    h.sockets.isSlotStreaming slot = (h.inTable slot && (h.view slot).socket.isStreaming) := by
  unfold SSERegistry.isSlotStreaming
  rw [hs.inRange_sockets]
  cases h.inTable slot with
  | true => rfl
  | false => rfl

theorem acts_chunk (hs : h.Shaped) (slot gen : Int) (frame : Bytes) :
    Acts h (h.chunk slot gen frame) slot fun v => v.piece false gen frame := by
  unfold chunk
  rw [hs.isSlotStreaming_streams]
  dsimp only
  split
  · next hmine =>
    have ⟨hstreams, hgen⟩ := Bool.and_eq_true_iff.mp hmine
    have ⟨hin, hstreaming⟩ := Bool.and_eq_true_iff.mp hstreams
    have hmine' : (((h.view slot).row false).isStreaming && (h.view slot).gen == gen) = true :=
      Bool.and_eq_true_iff.mpr ⟨hstreaming, (Bool.and_eq_true_iff.mp hgen).2⟩
    have hqueue := acts_queueStream hs slot frame
    have ⟨hclaim, _⟩ :=
      acts_claimLost { h with streams := (h.streams.queueFrame slot NO_EVENT_ID frame).1 } slot
    rw [SSERegistry.queued_queueFrame, hs.inRange_streams, hin, Bool.true_and]
    split
    · next htakes =>
      have htakes' : ((h.view slot).row false).takes NO_EVENT_ID frame = true := htakes
      refine hqueue.congr fun _ => ?_
      rw [Slot.piece_of_mine false hmine', if_pos htakes']
      exact if_pos htakes
    · next htakes =>
      have htakes' : ¬ ((h.view slot).row false).takes NO_EVENT_ID frame = true := htakes
      -- whether or not it is this refusal that is reported
      have hlost : ∀ {h₁ : WSGIHandler} {f : Slot → Slot}, Acts h h₁ slot f →
          f (h.view slot) = { h.view slot with lost := true } →
          Acts h h₁ slot fun v => v.piece false gen frame := by
        intro h₁ f ha hf
        refine ha.congr fun _ => hf.trans ?_
        rw [Slot.piece_of_mine false hmine', if_neg htakes', Bool.or_false]
        split
        · next hlost => rw [← hlost]
        · rfl
      have hf : (fun v : Slot => { (if v.stream.takes NO_EVENT_ID frame then
          { v with stream := v.stream.queue NO_EVENT_ID frame } else v) with lost := true }) (h.view slot) =
            { h.view slot with lost := true } :=
        congrArg (fun v : Slot => { v with lost := true }) (if_neg htakes)
      split
      · exact hlost ((hqueue.trans hclaim).trans (acts_abortStream _ slot gen)) hf
      · exact hlost (hqueue.trans hclaim) hf
  · next hnot =>
    refine (Acts.nothing h slot).congr fun hin => ?_
    rw [hin, Bool.true_and, genMatches, hin, Bool.true_and] at hnot
    exact (Slot.piece_of_other false (Bool.eq_false_iff.mpr hnot) frame).symm

theorem Shaped.hasPending_streams (hs : h.Shaped) (slot : Int) :
    hasPending h.streams slot = (h.inTable slot && decide (0 < (h.view slot).stream.pendingBuf.length)) := by
  unfold hasPending
  rw [hs.inRange_streams]
  rfl

theorem Shaped.hasPending_sockets (hs : h.Shaped) (slot : Int) :
    hasPending h.sockets slot = (h.inTable slot && decide (0 < (h.view slot).socket.pendingBuf.length)) := by
  unfold hasPending
  rw [hs.inRange_sockets]
  rfl

theorem acts_finish (hs : h.Shaped) (slot gen : Int) :
    Acts h (h.finish slot gen) slot fun v => v.finish false gen := by
  unfold finish
  split
  · next hother =>
    refine (Acts.nothing h slot).congr fun hin => ?_
    rw [genMatches, hin, Bool.true_and, Bool.not_eq_true'] at hother
    exact (Slot.finish_of_ne (ne_of_beq_false hother)).symm
  · next hmine =>
    rw [Bool.not_eq_true', Bool.not_eq_false] at hmine
    have ⟨_, hgen⟩ := Bool.and_eq_true_iff.mp hmine
    have hgen : (h.view slot).gen = gen := eq_of_beq hgen
    rw [hs.hasPending_streams]
    split
    · next hpending =>
      have ⟨_, hpos⟩ := Bool.and_eq_true_iff.mp hpending
      refine (acts_endOnceDrained h slot).congr fun _ => ?_
      exact (Slot.finish_of_pending false hgen (of_decide_eq_true hpos)).symm
    · next hpending =>
      refine (acts_unsubscribeStream hs slot).congr fun hin => ?_
      rw [hin, Bool.true_and] at hpending
      exact (Slot.finish_of_empty false hgen fun hpos => hpending (decide_eq_true hpos)).symm

theorem acts_queueSocket (hs : h.Shaped) (slot : Int) (frame : Bytes) :
    Acts h (h.queueSocket slot frame) slot fun v =>
      if v.socket.takes NO_EVENT_ID frame then { v with socket := v.socket.queue NO_EVENT_ID frame }
      else if v.lost then v
      else { v with lost := true, done := true } := by
  have hqueue := acts_queueSocketFrame hs slot frame
  unfold queueSocket
  dsimp only
  rw [SSERegistry.queued_queueFrame, hs.inRange_sockets]
  cases hin : h.inTable slot with
  | false =>
    rw [Bool.false_and, if_neg (by decide)]
    have ⟨hclaim, hclaimed⟩ :=
      acts_claimLost { h with sockets := (h.sockets.queueFrame slot NO_EVENT_ID frame).1 } slot
    rw [hclaimed]
    rw [show ({ h with sockets := (h.sockets.queueFrame slot NO_EVENT_ID frame).1 } : WSGIHandler).inTable
      slot = false from hin, Bool.false_and, if_neg (by decide)]
    exact (hqueue.trans hclaim).congr fun hyes => nomatch hin.symm.trans hyes
  | true =>
    rw [Bool.true_and]
    cases htakes : (h.sockets.slots slot).takes NO_EVENT_ID frame with
    | true =>
      have htakes' : (h.view slot).socket.takes NO_EVENT_ID frame = true := htakes
      rw [if_pos rfl]
      refine hqueue.congr fun _ => ?_
      rw [htakes', if_pos rfl, if_pos rfl]
    | false =>
      have htakes' : (h.view slot).socket.takes NO_EVENT_ID frame = false := htakes
      have ⟨hclaim, hclaimed⟩ :=
        acts_claimLost { h with sockets := (h.sockets.queueFrame slot NO_EVENT_ID frame).1 } slot
      have hboth := hqueue.trans hclaim
      rw [if_neg (by decide), hclaimed]
      rw [show ({ h with sockets := (h.sockets.queueFrame slot NO_EVENT_ID frame).1 } : WSGIHandler).inTable
        slot = true from hin, Bool.true_and]
      show Acts h (if (!h.streamLost slot) = true then _ else _) slot _
      cases hlost : h.streamLost slot with
      | true =>
        have hlost' : (h.view slot).lost = true := hlost
        refine hboth.congr fun _ => ?_
        simp only [htakes', hlost', Bool.false_eq_true, if_false, if_true]
        rw [← hlost']
      | false =>
        have hlost' : (h.view slot).lost = false := hlost
        refine (hboth.trans (acts_endOnceDrained _ slot)).congr fun _ => ?_
        simp only [htakes', hlost', Bool.false_eq_true, if_false]

theorem acts_socketFrame (hs : h.Shaped) (slot gen : Int) (frame : Bytes) :
    Acts h (h.socketFrame slot gen frame) slot fun v => v.piece true gen frame := by
  unfold socketFrame
  rw [hs.isSlotStreaming_sockets]
  split
  · next hmine =>
    have ⟨hstreams, hgen⟩ := Bool.and_eq_true_iff.mp hmine
    have ⟨_, hstreaming⟩ := Bool.and_eq_true_iff.mp hstreams
    refine (acts_queueSocket hs slot frame).congr fun _ => ?_
    rw [Slot.piece_of_mine true
      (Bool.and_eq_true_iff.mpr ⟨hstreaming, (Bool.and_eq_true_iff.mp hgen).2⟩), Bool.or_true]
    rfl
  · next hnot =>
    refine (Acts.nothing h slot).congr fun hin => ?_
    rw [hin, Bool.true_and, genMatches, hin, Bool.true_and] at hnot
    exact (Slot.piece_of_other true (Bool.eq_false_iff.mpr hnot) frame).symm

/-- What `x` does behind its Close frame. -/
theorem acts_socketEnd (hs : h.Shaped) {slot gen : Int} (hmine : (h.view slot).gen = gen) :
    Acts h
      (if hasPending h.sockets slot then h.endOnceDrained slot
      else { h with sockets := h.sockets.unsubscribe slot }) slot fun v => v.finish true gen := by
  rw [hs.hasPending_sockets]
  split
  · next hpending =>
    have ⟨_, hpos⟩ := Bool.and_eq_true_iff.mp hpending
    refine (acts_endOnceDrained h slot).congr fun _ => ?_
    exact (Slot.finish_of_pending true hmine (of_decide_eq_true hpos)).symm
  · next hpending =>
    refine (acts_unsubscribeSocket hs slot).congr fun hin => ?_
    rw [hin, Bool.true_and] at hpending
    exact (Slot.finish_of_empty true hmine fun hpos => hpending (decide_eq_true hpos)).symm

theorem acts_socketFinish (hs : h.Shaped) (slot gen : Int) (frame : Bytes) :
    Acts h (h.socketFinish slot gen frame) slot fun v => v.socketFinish gen frame := by
  unfold socketFinish
  split
  · next hother =>
    refine (Acts.nothing h slot).congr fun hin => ?_
    rw [genMatches, hin, Bool.true_and, Bool.not_eq_true'] at hother
    exact (Slot.socketFinish_of_ne (ne_of_beq_false hother) frame).symm
  · next hmine =>
    rw [Bool.not_eq_true', Bool.not_eq_false] at hmine
    have ⟨hin, hgen⟩ := Bool.and_eq_true_iff.mp hmine
    have hgen : (h.view slot).gen = gen := eq_of_beq hgen
    -- the Close frame, if there is one
    have hframe : Acts h
        (if 0 < frame.length && h.sockets.isSlotStreaming slot then h.queueSocket slot frame else h) slot
        fun v => if frame.isEmpty then v else v.piece true gen frame := by
      have hpiece := acts_socketFrame hs slot gen frame
      unfold socketFrame at hpiece
      rw [hmine, Bool.and_true] at hpiece
      cases frame with
      | nil => exact Acts.nothing h slot
      | cons b frame => exact hpiece
    refine hframe.trans (acts_socketEnd (hs.acts hframe) ?_)
    rw [hframe.self hin]
    show (if frame.isEmpty = true then _ else _ : Slot).gen = gen
    split
    · exact hgen
    · rw [Slot.gen_piece, hgen]

/-! ### Holds -/

/-- Only one slot's row changes, and it goes on streaming. -/
structure Keeps (r r' : SSERegistry) (slot : Int) : Prop where
  capacity : r'.capacity = r.capacity
  other : ∀ s, s ≠ slot ∨ r.inRange slot = false → r'.slots s = r.slots s
  streaming : (r.slots slot).isStreaming = true → (r'.slots slot).isStreaming = true

theorem Keeps.trans {r r' r'' : SSERegistry} (ha : Keeps r r' slot) (hb : Keeps r' r'' slot) :
    Keeps r r'' slot where
  capacity := hb.capacity.trans ha.capacity
  other s hs := by
    have hs' : s ≠ slot ∨ r'.inRange slot = false := by
      unfold SSERegistry.inRange at hs ⊢
      rwa [ha.capacity]
    rw [hb.other s hs', ha.other s hs]
  streaming h := hb.streaming (ha.streaming h)

theorem keeps_queueFrame (r : SSERegistry) (slot eventId : Int) (frame : Bytes) :
    Keeps r (r.queueFrame slot eventId frame).1 slot where
  capacity := by
    rw [SSERegistry.queueFrame_eq]
    split
    · exact SSERegistry.capacity_enqueue ..
    · rfl
  other s hs := by
    rw [SSERegistry.slots_queueFrame]
    rcases hs with hne | hout
    · simp [hne]
    · simp [hout]
  streaming h := by
    rw [SSERegistry.slots_queueFrame]
    split
    · exact h
    · exact h

theorem keeps_subscribe (r : SSERegistry) (slot : Int) (url : Bytes) (lastId : Int) :
    Keeps r (r.subscribe slot url lastId) slot where
  capacity := SSERegistry.capacity_subscribe ..
  other s hs := by
    rw [SSERegistry.slots_subscribe]
    rcases hs with hne | hout
    · simp [hne]
    · simp [hout]
  streaming h := by
    rw [SSERegistry.slots_subscribe]
    split
    · rfl
    · exact h

/-- What was queued is taken back, the slot subscribed anew. -/
theorem keeps_resubscribe (r : SSERegistry) (slot : Int) (url : Bytes) (lastId : Int) :
    Keeps r ((r.unsubscribe slot).subscribe slot url lastId) slot := by
  have hrange : (r.unsubscribe slot).inRange slot = r.inRange slot := by
    unfold SSERegistry.inRange
    rw [SSERegistry.capacity_unsubscribe]
  refine ⟨?_, fun s hs => ?_, fun h => ?_⟩
  · rw [SSERegistry.capacity_subscribe, SSERegistry.capacity_unsubscribe]
  · rw [SSERegistry.slots_subscribe, hrange, SSERegistry.slots_unsubscribe,
      SSERegistry.slots_unsubscribe]
    rcases hs with hne | hout
    · simp [hne]
    · simp [hout]
  · rw [SSERegistry.slots_subscribe, hrange, SSERegistry.slots_unsubscribe]
    cases r.inRange slot with
    | true => simp
    | false => simpa using h

theorem keeps_replayFrom (slot : Int) (entries : List Recorded) (r : SSERegistry) :
    Keeps r (replayFrom r slot entries).1 slot := by
  induction entries generalizing r with
  | nil => exact ⟨rfl, fun _ _ => rfl, id⟩
  | cons entry entries ih =>
    rw [replayFrom]
    split
    · exact (keeps_queueFrame r slot entry.id entry.frame).trans (ih _)
    · exact keeps_queueFrame r slot entry.id entry.frame

theorem keeps_catchUp (j : ReplayJournal) (r : SSERegistry) (slot : Int) (url : Bytes) (lastId : Int) :
    Keeps r (j.catchUp r slot url lastId).1 slot := by
  unfold ReplayJournal.catchUp
  dsimp only
  split
  · exact ⟨rfl, fun _ _ => rfl, id⟩
  · have hreplayed := keeps_replayFrom slot
      (j.entries.filter fun entry => entry.url == url && entry.id > lastId) r
    split
    · exact hreplayed
    · exact hreplayed.trans (keeps_resubscribe _ slot url lastId)

/-- The catch-up is the slot's own. -/
theorem resume_eq (h : WSGIHandler) (slot : Int) (url : Bytes) (lastId counter : Int) :
    ∃ r, h.resume slot url lastId counter = { h with streams := r } ∧ Keeps h.streams r slot := by
  have hcaught : ∀ (caught : SSERegistry × Bool) (gap : Bytes), Keeps h.streams caught.1 slot →
      ∃ r, (if caught.2 then { h with streams := caught.1 }
        else { h with streams := (caught.1.queueFrame slot NO_EVENT_ID gap).1 } : WSGIHandler) =
          { h with streams := r } ∧ Keeps h.streams r slot := by
    intro caught gap hkeeps
    split
    · exact ⟨_, rfl, hkeeps⟩
    · exact ⟨_, rfl, hkeeps.trans (keeps_queueFrame _ slot NO_EVENT_ID gap)⟩
  unfold resume
  dsimp only
  by_cases hfirst : lastId ≤ 0
  · rw [if_pos hfirst]
    exact ⟨h.streams, rfl, rfl, fun _ _ => rfl, id⟩
  · rw [if_neg hfirst]
    apply hcaught
    split
    · exact keeps_subscribe h.streams slot url _
    · exact keeps_catchUp h.replay h.streams slot url lastId

theorem acts_hold (hs : h.Shaped) (slot : Int) (channel : Bytes) (lastId counter : Int) :
    ∃ row : Subscription, row.isStreaming = true ∧
      Acts h (h.hold slot channel lastId counter) slot fun v => v.hold false row := by
  have hsubscribed := ((acts_subscribeStream hs slot channel lastId).trans (acts_clearLost _ slot)).trans
    (acts_setStreamGen _ slot STREAM_GEN_HELD)
  obtain ⟨r, heq, hkeeps⟩ := resume_eq ((({ h with streams := h.streams.subscribe slot channel lastId } :
    WSGIHandler).clearLost slot).setStreamGen slot STREAM_GEN_HELD) slot channel lastId counter
  unfold hold
  dsimp only
  rw [heq]
  cases hin : h.inTable slot with
  | false =>
    have hrange := (hs.acts hsubscribed).inRange_streams slot
    rw [hsubscribed.inTable, hin] at hrange
    refine ⟨{ isStreaming := true }, rfl, ?_⟩
    have hresumed := hsubscribed.trans (Acts.setStreams {} hkeeps.capacity
      (fun hyes => nomatch ((hsubscribed.inTable slot).trans hin).symm.trans hyes)
      fun s _ => hkeeps.other s (Or.inr hrange))
    exact hresumed.congr fun hyes => nomatch hin.symm.trans hyes
  | true =>
    have hview := hsubscribed.self hin
    refine ⟨r.slots slot, hkeeps.streaming ?_, ?_⟩
    · exact congrArg (fun v : Slot => v.stream.isStreaming) hview
    · refine (hsubscribed.trans (Acts.setStreams _ hkeeps.capacity (fun _ => rfl) fun s hne => ?_)).congr
        fun _ => rfl
      refine hkeeps.other s (Or.inl (hne.resolve_right fun hout => ?_))
      exact nomatch ((hsubscribed.inTable slot).trans hin).symm.trans hout

theorem acts_socketHold (hs : h.Shaped) (slot : Int) (url channel : Bytes) (lastId counter : Int) :
    ∃ row : Subscription, row.isStreaming = true ∧
      Acts h (h.socketHold slot url channel lastId counter) slot fun v => v.hold true row :=
  ⟨{ h.sockets.slots slot with
      isStreaming := true, filterUrl := channel, lastEventId := h.socketLastId lastId counter }, rfl,
    ((((acts_subscribeSocket hs slot channel (h.socketLastId lastId counter)).trans
      (acts_setHoldLane _ slot (parseStreamLane url))).trans (acts_clearLost _ slot)).trans
        (acts_setStreamGen _ slot STREAM_GEN_HELD)).congr fun _ => rfl⟩

/-! ### Drains and disconnects -/

theorem acts_drainStream (hs : h.Shaped) (slot : Int) :
    Acts h { h with streams := (h.streams.drain slot).1 } slot fun v =>
      { v with stream := { v.stream with pendingBuf := [] } } := by
  refine (Acts.setStreams { h.streams.slots slot with pendingBuf := [] }
    (SSERegistry.capacity_drain ..) (fun hin => ?_) fun s hne => ?_).congr fun _ => rfl
  · rw [SSERegistry.slots_drain, hs.inRange_streams, hin]
    simp
  · rw [SSERegistry.slots_drain, hs.inRange_streams]
    rcases hne with hne | hout
    · simp [hne]
    · simp [hout]

theorem acts_drainSocket (hs : h.Shaped) (slot : Int) :
    Acts h { h with sockets := (h.sockets.drain slot).1 } slot fun v =>
      { v with socket := { v.socket with pendingBuf := [] } } := by
  refine (Acts.setSockets { h.sockets.slots slot with pendingBuf := [] }
    (SSERegistry.capacity_drain ..) (fun hin => ?_) fun s hne => ?_).congr fun _ => rfl
  · rw [SSERegistry.slots_drain, hs.inRange_sockets, hin]
    simp
  · rw [SSERegistry.slots_drain, hs.inRange_sockets]
    rcases hne with hne | hout
    · simp [hne]
    · simp [hout]

theorem acts_sseDrainSlot (hs : h.Shaped) (slot : Int) :
    Acts h (h.sseDrainSlot slot).1 slot fun v => v.drain.1 := by
  unfold sseDrainSlot
  rw [hs.isSlotStreaming_sockets]
  dsimp only
  split
  · next hsocket =>
    have ⟨hin, hstreaming⟩ := Bool.and_eq_true_iff.mp hsocket
    have hdrained := acts_drainSocket hs slot
    have hempty : hasPending (h.sockets.drain slot).1 slot = false := by
      have hpending := (hs.acts hdrained).hasPending_sockets slot
      rw [hdrained.self hin] at hpending
      exact hpending.trans (Bool.and_false _)
    have hdone : ({ h with sockets := (h.sockets.drain slot).1 } : WSGIHandler).isDone slot =
        (h.view slot).done := by
      show (h.inTable slot && h.asgiDone slot) = _
      rw [hin]
      rfl
    rw [hdone, hempty, Bool.not_false, Bool.and_true]
    split
    · next hover =>
      have hended := (hdrained.trans (acts_unsubscribeSocket (hs.acts hdrained) slot)).trans
        (acts_setDone _ slot false)
      refine hended.congr fun _ => ?_
      rw [Slot.drain_eq hstreaming]
      exact (if_pos hover).symm
    · next hover =>
      refine hdrained.congr fun _ => ?_
      rw [Slot.drain_eq hstreaming]
      exact (if_neg hover).symm
  · next hsocket =>
    have hdrained := acts_drainStream hs slot
    cases hin : h.inTable slot with
    | false =>
      have hdone : ({ h with streams := (h.streams.drain slot).1 } : WSGIHandler).isDone slot = false := by
        show (h.inTable slot && _) = false
        rw [hin, Bool.false_and]
      rw [hdone, Bool.false_and, if_neg (by decide)]
      exact hdrained.congr fun hyes => nomatch hin.symm.trans hyes
    | true =>
      have hstreaming : (h.view slot).socket.isStreaming = false := by
        rw [hin, Bool.true_and] at hsocket
        exact Bool.eq_false_iff.mpr hsocket
      have hempty : hasPending (h.streams.drain slot).1 slot = false := by
        have hpending := (hs.acts hdrained).hasPending_streams slot
        rw [hdrained.self hin] at hpending
        exact hpending.trans (Bool.and_false _)
      have hdone : ({ h with streams := (h.streams.drain slot).1 } : WSGIHandler).isDone slot =
          (h.view slot).done := by
        show (h.inTable slot && h.asgiDone slot) = _
        rw [hin]
        rfl
      rw [hdone, hempty, Bool.not_false, Bool.and_true]
      split
      · next hover =>
        have hended := (hdrained.trans (acts_unsubscribeStream (hs.acts hdrained) slot)).trans
          (acts_setDone _ slot false)
        refine hended.congr fun _ => ?_
        rw [Slot.drain_eq hstreaming]
        exact (if_pos hover).symm
      · next hover =>
        refine hdrained.congr fun _ => ?_
        rw [Slot.drain_eq hstreaming]
        exact (if_neg hover).symm

theorem drained_sseDrainSlot (hs : h.Shaped) {slot : Int} (hin : h.inTable slot = true) :
    (h.sseDrainSlot slot).2 = (h.view slot).drain.2 := by
  unfold sseDrainSlot Slot.drain
  rw [hs.isSlotStreaming_sockets, hin, Bool.true_and]
  dsimp only
  cases hsocket : (h.view slot).socket.isStreaming with
  | true =>
    rw [if_pos rfl]
    have hout : (h.sockets.drain slot).2 = ((h.view slot).row true).pendingBuf := by
      rw [SSERegistry.drained_eq, hs.inRange_sockets, hin]
      rfl
    split
    · exact hout
    · exact hout
  | false =>
    rw [if_neg (by decide)]
    have hout : (h.streams.drain slot).2 = ((h.view slot).row false).pendingBuf := by
      rw [SSERegistry.drained_eq, hs.inRange_streams, hin]
      rfl
    split
    · exact hout
    · exact hout

theorem acts_clearSlot (h : WSGIHandler) (slot : Int) :
    Acts h (h.clearSlot slot) slot fun v =>
      { v with gen := STREAM_GEN_NONE, done := false, lost := false } := by
  unfold clearSlot
  split
  · next hin =>
    refine ⟨rfl, rfl, rfl, fun _ => ?_, fun s hs => ?_⟩
    · simp [view]
    · rcases hs with hne | hout
      · simp [view, Function.update_of_ne hne]
      · exact nomatch hin.symm.trans hout
  · next hout => exact (Acts.nothing h slot).congr fun hin => absurd hin hout

theorem acts_sseSlotDisconnected (hs : h.Shaped) (slot : Int) :
    Acts h (h.sseSlotDisconnected slot) slot fun _ => Slot.disconnected := by
  have hstream := acts_unsubscribeStream hs slot
  have hboth := hstream.trans (acts_unsubscribeSocket (hs.acts hstream) slot)
  have hcleared := (hboth.trans (acts_clearSlot _ slot)).trans (acts_resetInbound _ slot)
  refine (hcleared.trans (Acts.same ?_ ?_ ?_ ?_ ?_ ?_ slot)).congr fun _ => rfl
  all_goals rfl

/-! ### The bus -/

/-- A published frame goes to slots on its channel only. -/
theorem view_published (h : WSGIHandler) (url : Bytes) (eventId : Int) (frame : Bytes) (s : Int) :
    (h.published url eventId frame).view s =
      { h.view s with
        stream := ((h.streams.notifyFrame url eventId frame).1.slots s)
        socket := ((h.sockets.notifyFrame url eventId
          (encodeWsFrame WS_OP_TEXT (sseDataPayload frame))).1.slots s) } := by
  unfold published
  dsimp only
  split
  · rfl
  · rfl

theorem notifyFrame_of_ne {r : SSERegistry} {url : Bytes} {s : Int}
    (hne : (r.slots s).isStreaming = true → (r.slots s).filterUrl ≠ url) (eventId : Int) (frame : Bytes) :
    (r.notifyFrame url eventId frame).1.slots s = r.slots s := by
  rw [SSERegistry.slots_notifyFrame]
  split
  · next hall =>
    rw [Bool.and_eq_true, Bool.and_eq_true, Subscription.takes, Bool.and_eq_true, Bool.and_eq_true] at hall
    exact absurd (eq_of_beq hall.2.1) (hne hall.2.2.1.1)
  · rfl

theorem isStreaming_notifyFrame (r : SSERegistry) (url : Bytes) (eventId : Int) (frame : Bytes) (s : Int) :
    ((r.notifyFrame url eventId frame).1.slots s).isStreaming = (r.slots s).isStreaming := by
  rw [SSERegistry.slots_notifyFrame]
  split
  · rfl
  · rfl

end WSGIHandler

end MojoHttp
