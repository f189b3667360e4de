import MojoHttp.Sse.Registry

/-!
# The sockets of a handler (`ws.mojo`)

`WSHub` keeps who is connected and what each socket should be sent. Delivery has no filter: every
frame goes to every local connection, whole or not at all.

* **`WSHub.slots_broadcast`**, **`WSHub.slots_send`** — what a frame adds to an outbox.
* **`WSHub.slots_open`** — a connection starts with an empty outbox.
-/

namespace MojoHttp

/-- One slot's row of the parallel arrays. -/
structure HubSlot where
  connected : Bool := false
  outbox : Bytes := []
  deriving Repr, DecidableEq

namespace HubSlot

/-- The frame fits beside what is pending. -/
def hasRoom (row : HubSlot) (frame : Bytes) : Bool :=
  row.outbox.length + frame.length ≤ MAX_PENDING_BYTES

/-- The row with the frame behind what is pending, where it fits. -/
def queue (row : HubSlot) (frame : Bytes) : HubSlot :=
  if row.hasRoom frame then { row with outbox := row.outbox ++ frame } else row

end HubSlot

/-- A frame a component hands to the bus. -/
structure Published where
  url : Bytes
  eventId : Int
  frame : Bytes
  deriving Repr, DecidableEq

structure WSHub where
  capacity : Nat
  slots : Int → HubSlot
  ready : List Int
  named : Int → Bool
  /-- -1 until `enable_bus`. -/
  busWorker : Int
  /-- `shared_id_addr != 0`. -/
  sharedId : Bool

namespace WSHub

/-- `WSHub(capacity)`. -/
def new (capacity : Nat) : WSHub := ⟨capacity, fun _ => {}, [], fun _ => false, -1, false⟩

def inRange (h : WSHub) (slot : Int) : Bool := 0 ≤ slot && slot < h.capacity

def setSlot (h : WSHub) (slot : Int) (row : HubSlot) : WSHub :=
  { h with slots := Function.update h.slots slot row }

/-- `open`: the upgraded connection, its outbox cleared. -/
def «open» (h : WSHub) (slot : Int) : WSHub :=
  if !h.inRange slot then h else h.setSlot slot { connected := true, outbox := [] }

/-- `closed`. -/
def closed (h : WSHub) (slot : Int) : WSHub :=
  if !h.inRange slot then h else h.setSlot slot { connected := false, outbox := [] }

/-- `is_connected`. -/
def isConnected (h : WSHub) (slot : Int) : Bool := h.inRange slot && (h.slots slot).connected

/-- `_queue`: one whole frame, or nothing. -/
def queue (h : WSHub) (slot : Int) (frame : Bytes) : WSHub :=
  let row := h.slots slot
  if !row.hasRoom frame then h
  else
    let h := h.setSlot slot { row with outbox := row.outbox ++ frame }
    if h.named slot then h
    else { h with named := Function.update h.named slot true, ready := h.ready ++ [slot] }

/-- `take_ready`. -/
def takeReady (h : WSHub) : WSHub × List Int :=
  let named := h.ready.foldl (fun named slot => Function.update named slot false) h.named
  ({ h with named := named, ready := [] }, h.ready)

/-- `send`. -/
def send (h : WSHub) (slot : Int) (frame : Bytes) : WSHub :=
  if !h.isConnected slot then h else h.queue slot frame

/-- `drain`. -/
def drain (h : WSHub) (slot : Int) : WSHub × Bytes :=
  if !h.inRange slot || (h.slots slot).outbox.length == 0 then (h, [])
  else
    let row := h.slots slot
    (h.setSlot slot { row with outbox := [] }, row.outbox)

/-- `if self.connected[s]: self._queue(s, frame)`. -/
def queueConnected (frame : Bytes) (h : WSHub) (slot : Int) : WSHub :=
  if (h.slots slot).connected then h.queue slot frame else h

/-- `deliver_peer`: the frame for every local connection. -/
def deliverPeer (h : WSHub) (frame : Bytes) : WSHub :=
  (slotRange h.capacity).foldl (queueConnected frame) h

/-- `broadcast`: the frame for every local connection, and for the peers of a hub on the bus, its id
from the shared `counter`. -/
def broadcast (h : WSHub) (url frame : Bytes) (counter : Int) : WSHub × Option Published :=
  let h := h.deliverPeer frame
  if h.busWorker ≥ 0 then
    let eventId := if h.sharedId then counter + 1 else 0
    (h, some ⟨url, eventId, frame⟩)
  else (h, none)

/-- `enable_bus`. -/
def enableBus (h : WSHub) (worker : Int) (sharedId : Bool) : WSHub :=
  { h with busWorker := worker, sharedId := sharedId }

/-! ## What each does to a slot's row -/

@[simp] theorem slots_setSlot_self (h : WSHub) (slot : Int) (row : HubSlot) :
    (h.setSlot slot row).slots slot = row := by
  simp [setSlot]

theorem slots_setSlot_of_ne (h : WSHub) {slot s : Int} (hne : s ≠ slot) (row : HubSlot) :
    (h.setSlot slot row).slots s = h.slots s := by
  simp [setSlot, Function.update_of_ne hne]

/-- A connection starts with an empty outbox, whatever its slot held. -/
theorem slots_open (h : WSHub) (slot s : Int) :
    (h.«open» slot).slots s =
      if h.inRange slot && s == slot then { connected := true, outbox := [] } else h.slots s := by
  unfold WSHub.open
  cases h.inRange slot with
  | false => simp
  | true =>
    rcases Decidable.em (s = slot) with rfl | hne
    · simp
    · simp [slots_setSlot_of_ne _ hne, hne]

theorem slots_closed (h : WSHub) (slot s : Int) :
    (h.closed slot).slots s =
      if h.inRange slot && s == slot then { connected := false, outbox := [] } else h.slots s := by
  unfold closed
  cases h.inRange slot with
  | false => simp
  | true =>
    rcases Decidable.em (s = slot) with rfl | hne
    · simp
    · simp [slots_setSlot_of_ne _ hne, hne]

theorem slots_queue (h : WSHub) (slot : Int) (frame : Bytes) (s : Int) :
    (h.queue slot frame).slots s = if s = slot then (h.slots slot).queue frame else h.slots s := by
  unfold queue HubSlot.queue
  cases hroom : (h.slots slot).hasRoom frame with
  | false =>
    rcases Decidable.em (s = slot) with rfl | hne
    · simp [hroom]
    · simp [hne, hroom]
  | true =>
    rcases Decidable.em (s = slot) with rfl | hne
    · simp only [hroom, Bool.not_true, Bool.false_eq_true, if_false, if_true]
      split <;> simp
    · simp only [hroom, Bool.not_true, Bool.false_eq_true, if_false, if_neg hne]
      split <;> simp [slots_setSlot_of_ne _ hne]

theorem slots_send (h : WSHub) (slot : Int) (frame : Bytes) (s : Int) :
    (h.send slot frame).slots s =
      if h.isConnected slot && s == slot then (h.slots slot).queue frame else h.slots s := by
  unfold send
  cases h.isConnected slot with
  | false => simp
  | true => simp [slots_queue]

theorem slots_drain (h : WSHub) (slot s : Int) :
    (h.drain slot).1.slots s =
      if h.inRange slot && s == slot then { h.slots slot with outbox := [] } else h.slots s := by
  unfold drain
  cases h.inRange slot with
  | false => simp
  | true =>
    rcases Decidable.em (s = slot) with rfl | hne
    · cases hempty : (h.slots s).outbox.length == 0 with
      | false => simp
      | true =>
        rw [beq_iff_eq, List.length_eq_zero_iff] at hempty
        simp [← hempty]
    · cases (h.slots slot).outbox.length == 0 with
      | false => simp [slots_setSlot_of_ne _ hne, hne]
      | true => simp [hne]

theorem drained_eq (h : WSHub) (slot : Int) :
    (h.drain slot).2 = if h.inRange slot then (h.slots slot).outbox else [] := by
  unfold drain
  cases h.inRange slot with
  | false => rfl
  | true =>
    cases hempty : (h.slots slot).outbox.length == 0 with
    | false => rfl
    | true =>
      rw [beq_iff_eq, List.length_eq_zero_iff] at hempty
      simp [hempty]

/-- The loop over slots of which none comes twice. -/
theorem slots_foldl_queueConnected (frame : Bytes) (slots : List Int) (hnodup : slots.Nodup)
    (h : WSHub) (s : Int) :
    (slots.foldl (queueConnected frame) h).slots s =
      if decide (s ∈ slots) && (h.slots s).connected then (h.slots s).queue frame
      else h.slots s := by
  induction slots generalizing h with
  | nil => simp
  | cons slot slots ih =>
    have ⟨hnot, hrest⟩ := List.nodup_cons.mp hnodup
    rw [List.foldl_cons, ih hrest, queueConnected]
    rcases Decidable.em (s = slot) with rfl | hne
    · cases (h.slots s).connected with
      | false => simp [hnot]
      | true => simp [hnot, slots_queue]
    · cases (h.slots slot).connected with
      | false => simp [hne]
      | true => simp [hne, slots_queue]

/-- `deliver_peer` queues the frame for every connection it fits beside the outbox of. -/
theorem slots_deliverPeer (h : WSHub) (frame : Bytes) (s : Int) :
    (h.deliverPeer frame).slots s =
      if h.isConnected s then (h.slots s).queue frame else h.slots s := by
  rw [deliverPeer, slots_foldl_queueConnected _ _ (nodup_slotRange _), isConnected]
  simp [mem_slotRange, inRange]

/-- So does `broadcast`, here. -/
theorem slots_broadcast (h : WSHub) (url frame : Bytes) (counter : Int) (s : Int) :
    (h.broadcast url frame counter).1.slots s =
      if h.isConnected s then (h.slots s).queue frame else h.slots s := by
  rw [← slots_deliverPeer]
  unfold broadcast
  dsimp only
  split <;> rfl

end WSHub

end MojoHttp
