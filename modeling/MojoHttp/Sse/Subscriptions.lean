import MojoHttp.Lib.Outbox
import MojoHttp.Datastar.Stream

/-!
# Whose bytes a subscriber is handed

The outboxes of a registry, a Datastar stream and a hub, each seen through its calls: what a call
queues for a slot, hands out of it, or starts anew.

* **`SSERegistry.does`**, **`DatastarStream.does`** — a call does to a slot's outbox what its effect
  says, where a subscription finds the outbox empty: neither clears it.
* **`WSHub.does`** — so does every call on a hub, whose `open` clears it.
* **`drained_own`** — what a slot is handed between two opens was queued for it between them.
-/

namespace MojoHttp

/-! ## The registry -/

namespace SSERegistry

inductive Call where
  | subscribe (slot : Int) (url : Bytes) (lastEventId : Int)
  | unsubscribe (slot : Int)
  | notifyFrame (url : Bytes) (eventId : Int) (frame : Bytes)
  | queueFrame (slot : Int) (eventId : Int) (frame : Bytes)
  | drain (slot : Int)
  | takeReady
  deriving Repr, DecidableEq

def call (r : SSERegistry) : Call → SSERegistry
  | .subscribe slot url lastEventId => r.subscribe slot url lastEventId
  | .unsubscribe slot => r.unsubscribe slot
  | .notifyFrame url eventId frame => (r.notifyFrame url eventId frame).1
  | .queueFrame slot eventId frame => (r.queueFrame slot eventId frame).1
  | .drain slot => (r.drain slot).1
  | .takeReady => r.takeReady.1

/-- What `notify_frame` queues for slot `s`. -/
def notified (r : SSERegistry) (url : Bytes) (eventId : Int) (frame : Bytes) (s : Int) :
    List Bytes :=
  if r.inRange s && ((r.slots s).filterUrl == url && (r.slots s).takes eventId frame) then [frame]
  else []

/-- What a call does to the outbox of slot `s`. -/
def effect (s : Int) (r : SSERegistry) : Call → Effect UInt8
  | .subscribe slot _ _ => { reset := r.inRange slot && s == slot }
  | .unsubscribe slot => { reset := r.inRange slot && s == slot }
  | .notifyFrame url eventId frame => { queued := r.notified url eventId frame s }
  | .queueFrame slot eventId frame =>
    { queued := if (r.queueFrame slot eventId frame).2 && s == slot then [frame] else [] }
  | .drain slot => { drained := if s == slot then (r.drain slot).2 else [] }
  | .takeReady => {}

def pending (s : Int) (r : SSERegistry) : Bytes := (r.slots s).pendingBuf

/-- The outbox of slot `s`. -/
def outbox (s : Int) : Outbox SSERegistry Call UInt8 := ⟨call, pending s, effect s⟩

/-- A subscription of slot `s` finds its outbox empty. -/
def SubscribesEmpty (s : Int) (r : SSERegistry) : Call → Prop
  | .subscribe slot _ _ => s = slot → r.pending s = []
  | _ => True

theorem pending_notifyFrame (r : SSERegistry) (url : Bytes) (eventId : Int) (frame : Bytes)
    (s : Int) :
    (r.notifyFrame url eventId frame).1.pending s =
      r.pending s ++ (r.notified url eventId frame s).flatten := by
  rw [pending, slots_notifyFrame, notified]
  cases r.inRange s && ((r.slots s).filterUrl == url && (r.slots s).takes eventId frame) with
  | false => simp [pending]
  | true => simp [pending, Subscription.queue]

theorem pending_queueFrame (r : SSERegistry) (slot : Int) (eventId : Int) (frame : Bytes)
    (s : Int) :
    (r.queueFrame slot eventId frame).1.pending s =
      r.pending s ++
        (if (r.queueFrame slot eventId frame).2 && s == slot then [frame] else []).flatten := by
  rw [pending, slots_queueFrame, queued_queueFrame]
  cases r.inRange slot && (r.slots slot).takes eventId frame with
  | false => simp [pending]
  | true =>
    rcases Decidable.em (s = slot) with rfl | hne
    · simp [pending, Subscription.queue]
    · simp [pending, hne]

/-- A subscription leaves the outbox as it was. -/
theorem pending_subscribe (r : SSERegistry) (slot : Int) (url : Bytes) (lastEventId : Int)
    (s : Int) : (r.subscribe slot url lastEventId).pending s = r.pending s := by
  rw [pending, slots_subscribe]
  split
  · next h =>
    rw [Bool.and_eq_true, beq_iff_eq] at h
    rw [pending, h.2]
  · rfl

theorem pending_unsubscribe (r : SSERegistry) (slot s : Int) :
    (r.unsubscribe slot).pending s = if r.inRange slot && s == slot then [] else r.pending s := by
  rw [pending, slots_unsubscribe]
  split <;> rfl

/-- What is drained and what is left is what was pending. -/
theorem drain_append_pending (r : SSERegistry) (slot s : Int) :
    (if s == slot then (r.drain slot).2 else []) ++ (r.drain slot).1.pending s = r.pending s := by
  rw [pending, slots_drain, drained_eq]
  rcases Decidable.em (s = slot) with rfl | hne
  · cases r.inRange s <;> simp [pending]
  · simp [pending, hne]

/-- Every call does what its effect says to the outbox of every slot, where a subscription of the slot
finds it empty. -/
theorem does (s : Int) (r : SSERegistry) (c : Call) (h : r.SubscribesEmpty s c) :
    (effect s r c).Does (r.pending s) ((r.call c).pending s) := by
  cases c with
  | subscribe slot url lastEventId =>
    apply Effect.does_start
    · show (r.subscribe slot url lastEventId).pending s = _
      rw [pending_subscribe, List.flatten_nil, List.append_nil]
    · intro hreset
      rw [Bool.and_eq_true, beq_iff_eq] at hreset
      exact h hreset.2
  | unsubscribe slot => exact Effect.does_reset (pending_unsubscribe r slot s)
  | notifyFrame url eventId frame => exact Effect.does_queue (pending_notifyFrame r url eventId frame s)
  | queueFrame slot eventId frame => exact Effect.does_queue (pending_queueFrame r slot eventId frame s)
  | drain slot =>
    apply Effect.does_drain
    rw [List.flatten_nil, List.append_nil]
    exact drain_append_pending r slot s
  | takeReady => exact Effect.does_nothing _

end SSERegistry

/-! ## The hub -/

namespace WSHub

inductive Call where
  | opened (slot : Int)
  | closed (slot : Int)
  | send (slot : Int) (frame : Bytes)
  | broadcast (url frame : Bytes) (counter : Int)
  | deliverPeer (frame : Bytes)
  | drain (slot : Int)
  | takeReady
  deriving Repr, DecidableEq

def call (h : WSHub) : Call → WSHub
  | .opened slot => h.open slot
  | .closed slot => h.closed slot
  | .send slot frame => h.send slot frame
  | .broadcast url frame counter => (h.broadcast url frame counter).1
  | .deliverPeer frame => h.deliverPeer frame
  | .drain slot => (h.drain slot).1
  | .takeReady => h.takeReady.1

def pending (s : Int) (h : WSHub) : Bytes := (h.slots s).outbox

/-- A frame for the connection of slot `s`, which takes it or drops it. -/
def queued (s : Int) (h : WSHub) (frame : Bytes) : List Bytes :=
  if h.isConnected s && (h.slots s).hasRoom frame then [frame] else []

/-- What a call does to the outbox of slot `s`. -/
def effect (s : Int) (h : WSHub) : Call → Effect UInt8
  | .opened slot => { reset := h.inRange slot && s == slot }
  | .closed slot => { reset := h.inRange slot && s == slot }
  | .send slot frame => { queued := if s == slot then h.queued s frame else [] }
  | .broadcast _ frame _ => { queued := h.queued s frame }
  | .deliverPeer frame => { queued := h.queued s frame }
  | .drain slot => { drained := if s == slot then (h.drain slot).2 else [] }
  | .takeReady => {}

/-- The outbox of slot `s`. -/
def outbox (s : Int) : Outbox WSHub Call UInt8 := ⟨call, pending s, effect s⟩

theorem outbox_queue (row : HubSlot) (frame : Bytes) :
    (row.queue frame).outbox = row.outbox ++ (if row.hasRoom frame then [frame] else []).flatten := by
  unfold HubSlot.queue
  cases row.hasRoom frame <;> simp

theorem pending_deliverPeer (h : WSHub) (frame : Bytes) (s : Int) :
    (h.deliverPeer frame).pending s = h.pending s ++ (h.queued s frame).flatten := by
  rw [pending, slots_deliverPeer, queued]
  cases h.isConnected s with
  | false => simp [pending]
  | true => simp [pending, outbox_queue]

/-- Every call does what its effect says to the outbox of every slot. -/
theorem does (s : Int) (h : WSHub) (c : Call) :
    (effect s h c).Does (h.pending s) ((h.call c).pending s) := by
  cases c with
  | opened slot =>
    apply Effect.does_reset
    show ((h.open slot).slots s).outbox = _
    rw [slots_open]
    split <;> rfl
  | closed slot =>
    apply Effect.does_reset
    show ((h.closed slot).slots s).outbox = _
    rw [slots_closed]
    split <;> rfl
  | send slot frame =>
    apply Effect.does_queue
    show ((h.send slot frame).slots s).outbox = _
    rw [slots_send, queued]
    rcases Decidable.em (s = slot) with rfl | hne
    · cases h.isConnected s with
      | false => simp [pending]
      | true => simp [pending, outbox_queue]
    · simp [pending, hne]
  | broadcast url frame counter =>
    apply Effect.does_queue
    show ((h.broadcast url frame counter).1.slots s).outbox = _
    rw [slots_broadcast, ← slots_deliverPeer]
    exact pending_deliverPeer h frame s
  | deliverPeer frame => exact Effect.does_queue (pending_deliverPeer h frame s)
  | drain slot =>
    apply Effect.does_drain
    show (if s == slot then (h.drain slot).2 else []) ++ ((h.drain slot).1.slots s).outbox = _
    rw [slots_drain, drained_eq]
    rcases Decidable.em (s = slot) with rfl | hne
    · cases h.inRange s <;> simp [pending]
    · simp [pending, hne]
  | takeReady => exact Effect.does_nothing _

end WSHub

/-! ## The stream -/

namespace DatastarStream

inductive Call where
  | opened (slotId : Int) (url : Bytes) (lastEventId : Option Int) (counter : Int)
  | broadcast (url : Bytes) (build : Int → Option Bytes) (counter : Int)
  | sendTo (slot : Int) (frame : Bytes)
  | deliverPeer (url : Bytes) (eventId : Int) (frame : Bytes)
  | drain (slot : Int)
  | closed (slot : Int)
  | restore (url : Bytes) (eventId : Int) (frame : Bytes)
  | enableBus (worker counter : Int)

def call (st : DatastarStream) : Call → DatastarStream
  | .opened slotId url lastEventId counter => (st.open slotId url lastEventId counter).1
  | .broadcast url build counter => (st.broadcast url build counter).1
  | .sendTo slot frame => (st.sendTo slot frame).1
  | .deliverPeer url eventId frame => st.deliverPeer url eventId frame
  | .drain slot => (st.drain slot).1
  | .closed slot => st.closed slot
  | .restore url eventId frame => st.restore url eventId frame
  | .enableBus worker counter => (st.enableBus worker counter).1

/-- What an open queues for its own slot: the newest frame of a stream of states, or the whole of
what the client missed, or nothing. -/
def openQueued (st : DatastarStream) (slotId : Int) (url : Bytes) (lastEventId : Option Int)
    (counter : Int) : List Bytes :=
  if slotId < 0 then []
  else if st.sendLatest then
    match st.latest.find? fun kept => kept.url == url with
    | some kept =>
      if ((st.registry.subscribe slotId url 0).queueFrame slotId kept.id kept.frame).2 then
        [kept.frame]
      else []
    | none => []
  else
    match lastEventId with
    | none => []
    | some presented =>
      if presented > st.currentId counter then []
      else
        let subscribed :=
          { st with registry := st.registry.subscribe slotId url presented }.setGapped slotId false
        if (subscribed.replay slotId url presented).2 then
          (subscribed.missed url presented).map Recorded.frame
        else []

/-- What a drain of a stream of states queues for its slot. -/
def drainQueued (st : DatastarStream) (slot : Int) : List Bytes :=
  let drained := { st with registry := (st.registry.drain slot).1 }
  if st.sendLatest then
    match drained.behind slot with
    | none => []
    | some kept =>
      if (drained.registry.queueFrame slot kept.id kept.frame).2 then [kept.frame] else []
  else []

/-- What a call does to the outbox of slot `s`. -/
def effect (s : Int) (st : DatastarStream) : Call → Effect UInt8
  | .opened slotId url lastEventId counter =>
    { reset := s == slotId
      queued := if s == slotId then st.openQueued slotId url lastEventId counter else [] }
  | .broadcast url build counter =>
    let eventId := (st.nextId counter).2.1
    { queued :=
        match build eventId with
        | none => []
        | some frame => st.registry.notified url eventId frame s }
  | .sendTo slot frame => { queued := if (st.sendTo slot frame).2 && s == slot then [frame] else [] }
  | .deliverPeer url eventId frame => { queued := st.registry.notified url eventId frame s }
  | .drain slot =>
    { drained := if s == slot then (st.drain slot).2 else []
      queued := if s == slot then st.drainQueued slot else [] }
  | .closed slot => { reset := st.registry.inRange slot && s == slot }
  | .restore _ _ _ => {}
  | .enableBus _ _ => {}

def pending (s : Int) (st : DatastarStream) : Bytes := st.registry.pending s

/-- The outbox of slot `s`. -/
def outbox (s : Int) : Outbox DatastarStream Call UInt8 := ⟨call, pending s, effect s⟩

/-- An open of slot `s` finds its outbox empty. -/
def OpensEmpty (s : Int) (st : DatastarStream) : Call → Prop
  | .opened slotId _ _ _ => s = slotId → st.pending s = []
  | _ => True

/-! ### What leaves the registry alone -/

@[simp] theorem registry_setGapped (st : DatastarStream) (slot : Int) (value : Bool) :
    (st.setGapped slot value).registry = st.registry := by
  unfold setGapped
  split <;> rfl

@[simp] theorem registry_nextId (st : DatastarStream) (counter : Int) :
    (st.nextId counter).1.registry = st.registry := by
  unfold nextId
  split <;> rfl

theorem registry_evictOver (st : DatastarStream) (fuel : Nat) :
    (st.evictOver fuel).registry = st.registry := by
  induction fuel generalizing st with
  | zero => rfl
  | succ fuel ih =>
    unfold evictOver
    split
    · rfl
    · split
      · exact ih _
      · rfl

@[simp] theorem registry_record (st : DatastarStream) (url : Bytes) (eventId : Int)
    (frame : Bytes) : (st.record url eventId frame).registry = st.registry := by
  unfold record
  dsimp only
  split <;> split <;> simp [registry_evictOver, noteEvicted, remember]

@[simp] theorem registry_restore (st : DatastarStream) (url : Bytes) (eventId : Int)
    (frame : Bytes) : (st.restore url eventId frame).registry = st.registry := by
  unfold restore
  dsimp only
  split <;> split <;> simp

@[simp] theorem registry_enableBus (st : DatastarStream) (worker counter : Int) :
    (st.enableBus worker counter).1.registry = st.registry := by
  unfold enableBus
  dsimp only
  split
  · rfl
  · split <;> rfl

/-! ### The catch-up -/

/-- The frames replayed go to the slot, behind what it holds, and to no other. -/
theorem pending_replayFrom {slot : Int} {entries : List Recorded} {r : SSERegistry}
    (h : (replayFrom r slot entries).2 = true) :
    (replayFrom r slot entries).1.pending slot =
      r.pending slot ++ (entries.map Recorded.frame).flatten := by
  induction entries generalizing r with
  | nil => simp [replayFrom]
  | cons entry entries ih =>
    rw [replayFrom] at h ⊢
    cases hqueued : (r.queueFrame slot entry.id entry.frame).2 with
    | false => simp [hqueued] at h
    | true =>
      rw [hqueued, if_pos rfl] at h
      rw [if_pos rfl, ih h, SSERegistry.pending_queueFrame, hqueued]
      simp

theorem pending_replayFrom_of_ne {slot s : Int} (hne : s ≠ slot) (entries : List Recorded)
    (r : SSERegistry) : (replayFrom r slot entries).1.pending s = r.pending s := by
  have hone : ∀ (r : SSERegistry) (entry : Recorded),
      (r.queueFrame slot entry.id entry.frame).1.pending s = r.pending s := by
    intro r entry
    rw [SSERegistry.pending_queueFrame]
    simp [hne]
  induction entries generalizing r with
  | nil => rfl
  | cons entry entries ih =>
    rw [replayFrom]
    split
    · rw [ih, hone]
    · exact hone r entry

theorem inRange_replayFrom (slot : Int) (entries : List Recorded) (r : SSERegistry) (s : Int) :
    (replayFrom r slot entries).1.inRange s = r.inRange s := by
  induction entries generalizing r with
  | nil => rfl
  | cons entry entries ih =>
    rw [replayFrom]
    split
    · rw [ih, SSERegistry.inRange_queueFrame]
    · exact SSERegistry.inRange_queueFrame r slot entry.id entry.frame s

/-- A slot past the registry's end is sent nothing. -/
theorem replayFrom_of_outside {slot : Int} {r : SSERegistry} (h : r.inRange slot = false)
    (entries : List Recorded) : (replayFrom r slot entries).1 = r := by
  cases entries with
  | nil => rfl
  | cons entry entries => simp [replayFrom, SSERegistry.queueFrame_eq, h]

/-- What a catch-up taken back leaves: nothing, what was pending before it included. -/
theorem pending_takenBack (r : SSERegistry) (slot : Int) (url : Bytes) (lastId s : Int) :
    ((r.unsubscribe slot).subscribe slot url lastId).pending s =
      if r.inRange slot && s == slot then [] else r.pending s := by
  rw [SSERegistry.pending_subscribe, SSERegistry.pending_unsubscribe]

theorem pending_replay_of_ne {slot s : Int} (hne : s ≠ slot) (st : DatastarStream) (url : Bytes)
    (lastId : Int) : (st.replay slot url lastId).1.pending s = st.pending s := by
  have hsent := pending_replayFrom_of_ne hne (st.missed url lastId) st.registry
  unfold replay
  split
  · rfl
  · dsimp only
    split
    · exact hsent
    · refine (pending_takenBack _ slot url lastId s).trans ?_
      rw [if_neg (by simp [hne])]
      exact hsent

/-- A slot with nothing pending is sent all it missed, or holds nothing still. -/
theorem pending_replay {slot : Int} {st : DatastarStream} (hempty : st.pending slot = [])
    (url : Bytes) (lastId : Int) :
    (st.replay slot url lastId).1.pending slot =
      (if (st.replay slot url lastId).2 then (st.missed url lastId).map Recorded.frame
        else []).flatten := by
  have hempty' : st.registry.pending slot = [] := hempty
  unfold replay
  split
  · exact hempty
  · dsimp only
    split
    · next hall =>
      have hsent := pending_replayFrom hall
      rw [hempty', List.nil_append] at hsent
      rw [if_pos rfl]
      exact hsent
    · refine (pending_takenBack _ slot url lastId slot).trans ?_
      rw [inRange_replayFrom, if_neg Bool.false_ne_true, List.flatten_nil]
      cases hrange : st.registry.inRange slot with
      | true => simp
      | false =>
        rw [replayFrom_of_outside hrange, hempty']
        rfl

/-- **An open does what it says** to the outbox of its slot, if that is empty, and nothing to another's. -/
theorem does_open (s : Int) (st : DatastarStream) (slotId : Int) (url : Bytes)
    (lastEventId : Option Int) (counter : Int) (hempty : s = slotId → st.pending s = []) :
    (st.open slotId url lastEventId counter).1.pending s =
      st.pending s ++
        (if s == slotId then st.openQueued slotId url lastEventId counter else []).flatten := by
  unfold DatastarStream.open openQueued
  split
  · simp
  · split
    · -- a stream of states: the newest frame of the url
      have hsubscribed := SSERegistry.pending_subscribe st.registry slotId url 0
      cases st.latest.find? fun kept => kept.url == url with
      | none => simp [pending, hsubscribed]
      | some kept =>
        show ((st.registry.subscribe slotId url 0).queueFrame slotId kept.id kept.frame).1.pending s = _
        rw [SSERegistry.pending_queueFrame, hsubscribed]
        rcases Decidable.em (s = slotId) with rfl | hne
        · simp [pending]
        · simp [pending, hne]
    · cases lastEventId with
      | none => simp [pending, SSERegistry.pending_subscribe]
      | some presented =>
        dsimp only
        rcases Decidable.em (presented > st.currentId counter) with hahead | hnot
        · simp [hahead, pending, SSERegistry.pending_subscribe]
        · -- the journal's frames after the id presented
          simp only [hnot, if_false]
          have hsubscribed : (({ st with registry := st.registry.subscribe slotId url presented } :
              DatastarStream).setGapped slotId false).pending s = st.pending s := by
            simp [pending, SSERegistry.pending_subscribe]
          generalize ({ st with registry := st.registry.subscribe slotId url presented } :
            DatastarStream).setGapped slotId false = subscribed at hsubscribed ⊢
          have hsame : (if (subscribed.replay slotId url presented).2 = true then
              ((subscribed.replay slotId url presented).1, true)
            else ((subscribed.replay slotId url presented).1.setGapped slotId true, true)).1.pending s =
              (subscribed.replay slotId url presented).1.pending s := by
            split
            · rfl
            · simp [pending]
          rw [hsame]
          rcases Decidable.em (s = slotId) with heq | hne
          · subst heq
            rw [pending_replay (hsubscribed.trans (hempty rfl)), hempty rfl, beq_self_eq_true]
            rfl
          · rw [pending_replay_of_ne hne, hsubscribed]
            simp [hne]

/-! ### Every call -/

theorem pending_notify (st : DatastarStream) (url : Bytes) (eventId : Int) (frame : Bytes)
    (s : Int) : (st.notify url eventId frame).pending s =
      st.pending s ++ (st.registry.notified url eventId frame s).flatten :=
  SSERegistry.pending_notifyFrame st.registry url eventId frame s

theorem pending_dispatch (st : DatastarStream) (url : Bytes) (eventId : Int) (frame : Bytes)
    (s : Int) : (st.dispatch url eventId frame).1.pending s =
      st.pending s ++ (st.registry.notified url eventId frame s).flatten := by
  show ((st.record url eventId frame).notify url eventId frame).pending s = _
  rw [pending_notify, pending, registry_record]
  rfl

/-- A peer's frame reaches the registry as a frame of the bus does. -/
theorem registry_deliverPeer (st : DatastarStream) (url : Bytes) (eventId : Int) (frame : Bytes) :
    (st.deliverPeer url eventId frame).registry =
      (st.registry.notifyFrame url eventId frame).1 := by
  unfold deliverPeer
  dsimp only
  split <;> simp [notify]

theorem pending_deliverPeer (st : DatastarStream) (url : Bytes) (eventId : Int) (frame : Bytes)
    (s : Int) : (st.deliverPeer url eventId frame).pending s =
      st.pending s ++ (st.registry.notified url eventId frame s).flatten := by
  rw [pending, registry_deliverPeer]
  exact SSERegistry.pending_notifyFrame st.registry url eventId frame s

theorem pending_catchUp (st : DatastarStream) (slot s : Int) :
    (st.catchUp slot).pending s =
      st.pending s ++
        (if s == slot then
          match st.behind slot with
          | none => []
          | some kept =>
            if (st.registry.queueFrame slot kept.id kept.frame).2 then [kept.frame] else []
        else []).flatten := by
  unfold catchUp
  cases st.behind slot with
  | none => simp
  | some kept =>
    refine (SSERegistry.pending_queueFrame st.registry slot kept.id kept.frame s).trans ?_
    rcases Decidable.em (s = slot) with rfl | hne
    · simp [pending]
    · simp [pending, hne]

theorem does_drain (s : Int) (st : DatastarStream) (slot : Int) :
    (if s == slot then (st.drain slot).2 else []) ++ (st.drain slot).1.pending s =
      st.pending s ++ (if s == slot then st.drainQueued slot else []).flatten := by
  have hout := SSERegistry.drain_append_pending st.registry slot s
  have hlast : (st.drain slot).2 = (st.registry.drain slot).2 := rfl
  rw [hlast]
  cases hlatest : st.sendLatest with
  | false =>
    have hdrain : (st.drain slot).1.pending s = (st.registry.drain slot).1.pending s := by
      simp [drain, hlatest, pending]
    rw [hdrain, hout, drainQueued, hlatest]
    simp [pending]
  | true =>
    have hdrain : (st.drain slot).1.pending s =
        (({ st with registry := (st.registry.drain slot).1 } : DatastarStream).catchUp slot).pending
          s := by
      simp [drain, hlatest]
    rw [hdrain, pending_catchUp, ← List.append_assoc]
    have hfirst : (if s == slot then (st.registry.drain slot).2 else []) ++
        ({ st with registry := (st.registry.drain slot).1 } : DatastarStream).pending s =
          st.pending s := hout
    rw [hfirst, drainQueued, hlatest]
    rfl

/-- Every call does what its effect says to the outbox of every slot, where an open of the slot finds
it empty. -/
theorem does (s : Int) (st : DatastarStream) (c : Call) (h : st.OpensEmpty s c) :
    (effect s st c).Does (st.pending s) ((st.call c).pending s) := by
  cases c with
  | opened slotId url lastEventId counter =>
    apply Effect.does_start (does_open s st slotId url lastEventId counter h)
    intro hreset
    exact h (beq_iff_eq.mp hreset)
  | broadcast url build counter =>
    apply Effect.does_queue
    show (st.broadcast url build counter).1.pending s = _
    unfold broadcast
    dsimp only
    cases build (st.nextId counter).2.1 with
    | none => simp [pending]
    | some frame =>
      refine (pending_dispatch _ url _ frame s).trans ?_
      rw [pending, registry_nextId]
      rfl
  | sendTo slot frame =>
    exact Effect.does_queue (SSERegistry.pending_queueFrame st.registry slot NO_EVENT_ID frame s)
  | deliverPeer url eventId frame => exact Effect.does_queue (pending_deliverPeer st url eventId frame s)
  | drain slot => exact Effect.does_drain (does_drain s st slot)
  | closed slot =>
    apply Effect.does_reset
    show (st.closed slot).pending s = _
    rw [closed, pending, registry_setGapped]
    exact SSERegistry.pending_unsubscribe st.registry slot s
  | restore url eventId frame =>
    have hsame : (st.call (.restore url eventId frame)).pending s = st.pending s := by
      simp [call, pending]
    rw [hsame]
    exact Effect.does_nothing _
  | enableBus worker counter =>
    have hsame : (st.call (.enableBus worker counter)).pending s = st.pending s := by
      simp [call, pending]
    rw [hsame]
    exact Effect.does_nothing _

end DatastarStream

/-! ## A subscriber's own bytes -/

/-- What the outbox handed out since it was last started anew was queued since, in that order. -/
def HandsOwn {S C : Type*} (o : Outbox S C UInt8) (s : S) (cs : List C) : Prop :=
  (o.since s cs ⟨[], []⟩).drained <+: (o.since s cs ⟨[], []⟩).queued.flatten

/-- **A subscriber is handed only its own subscription's bytes** — on a registry and on a stream in
every run whose opens of the slot find its outbox empty, and on a hub, whose `open` empties it, in
every run. -/
theorem drained_own (slot : Int) :
    (∀ capacity cs,
      (SSERegistry.outbox slot).Throughout (SSERegistry.SubscribesEmpty slot)
        (SSERegistry.new capacity) cs →
      HandsOwn (SSERegistry.outbox slot) (SSERegistry.new capacity) cs) ∧
    (∀ capacity journalEntries sendLatest cs,
      (DatastarStream.outbox slot).Throughout (DatastarStream.OpensEmpty slot)
        (DatastarStream.new capacity journalEntries sendLatest) cs →
      HandsOwn (DatastarStream.outbox slot)
        (DatastarStream.new capacity journalEntries sendLatest) cs) ∧
    ∀ capacity cs, HandsOwn (WSHub.outbox slot) (WSHub.new capacity) cs := by
  refine ⟨?_, ?_, ?_⟩
  · intro capacity cs h
    exact Outbox.drained_prefix (SSERegistry.does slot) rfl h
  · intro capacity journalEntries sendLatest cs h
    exact Outbox.drained_prefix (DatastarStream.does slot) rfl h
  · intro capacity cs
    have hany : (WSHub.outbox slot).Throughout (fun _ _ => True) (WSHub.new capacity) cs := by
      generalize WSHub.new capacity = h
      induction cs generalizing h with
      | nil => trivial
      | cons c cs ih => exact ⟨trivial, ih _⟩
    exact Outbox.drained_prefix (fun h c _ => WSHub.does slot h c) rfl hany

/-- A slot opened, broadcast to and drained, closed, and opened again for the next client. -/
theorem drained_own_reopened :
    HandsOwn (DatastarStream.outbox 0) (DatastarStream.new 1 0 false)
      [.opened 0 (ascii "/a") none 0, .broadcast (ascii "/a") (fun _ => some (ascii "x")) 0,
        .drain 0, .closed 0, .opened 0 (ascii "/b") none 0, .drain 0] :=
  (drained_own 0).2.1 1 0 false _
    ⟨fun _ => rfl, trivial, trivial, trivial, fun _ => rfl, trivial, trivial⟩

/-- A slot opened, broadcast to, and opened again before it was drained: the second client is handed
the first one's frame. -/
theorem not_drained_own :
    ¬ ∀ (slot : Int) (capacity : Nat) (journalEntries : Int) (sendLatest : Bool)
      (cs : List DatastarStream.Call),
      HandsOwn (DatastarStream.outbox slot)
        (DatastarStream.new capacity journalEntries sendLatest) cs := by
  intro hall
  have hrun := hall 0 1 0 false
    [.opened 0 (ascii "/a") none 0, .broadcast (ascii "/a") (fun _ => some (ascii "x")) 0,
      .opened 0 (ascii "/b") none 0, .drain 0]
  have hhanded : ((DatastarStream.outbox 0).since (DatastarStream.new 1 0 false)
      [.opened 0 (ascii "/a") none 0, .broadcast (ascii "/a") (fun _ => some (ascii "x")) 0,
        .opened 0 (ascii "/b") none 0, .drain 0] ⟨[], []⟩) = ⟨[], ascii "x"⟩ := by
    rfl
  rw [HandsOwn, hhanded] at hrun
  revert hrun
  decide

end MojoHttp
