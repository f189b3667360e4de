import MojoHttp.Bytes
import Mathlib.Data.List.Nodup
import Mathlib.Logic.Function.Basic
import Mathlib.Data.Int.Order.Basic

/-!
# The subscribers of a worker (`sse/registry.mojo`)

Which connection slots are subscribed to which url, and what is pending for each. A frame goes in
whole or not at all, and only past the redelivery filter: a numbered frame must be newer than the
last one the slot took.

* **`SSERegistry.pending_notifyFrame`**, **`SSERegistry.pending_queueFrame`** — what a frame adds to
  a slot's outbox: itself, or nothing.
* **`SSERegistry.pending_subscribe`** — a subscription leaves the outbox as it was.
-/

namespace MojoHttp

/-- Passed as `event_id` for a frame without an `id:` field. -/
def NO_EVENT_ID : Int := -1

/-- A frame that would take a slot's outbox past this is dropped. -/
def MAX_PENDING_BYTES : Nat := 65536

/-- One slot's row of the parallel arrays. -/
structure Subscription where
  isStreaming : Bool := false
  filterUrl : Bytes := []
  lastEventId : Int := 0
  pendingBuf : Bytes := []
  deriving Repr, DecidableEq

structure SSERegistry where
  capacity : Nat
  slots : Int → Subscription
  /-- Slots whose outbox has gained bytes, or whose subscription has ended, since `take_ready`. -/
  ready : List Int
  /-- By slot: whether it is in `ready`. -/
  named : Int → Bool
  active : Int

/-- `for slot in range(capacity)`. -/
def slotRange (capacity : Nat) : List Int := (List.range capacity).map Int.ofNat

theorem mem_slotRange {capacity : Nat} {slot : Int} :
    slot ∈ slotRange capacity ↔ 0 ≤ slot ∧ slot < capacity := by
  simp only [slotRange, List.mem_map, List.mem_range]
  constructor
  · rintro ⟨n, hn, rfl⟩
    simp only [Int.ofNat_eq_natCast]
    omega
  · rintro ⟨hpos, hlt⟩
    exact ⟨slot.toNat, by omega, by simp only [Int.ofNat_eq_natCast]; omega⟩

theorem nodup_slotRange (capacity : Nat) : (slotRange capacity).Nodup := by
  apply List.Nodup.map
  · intro a b h
    exact Int.ofNat.inj h
  · exact List.nodup_range

namespace Subscription

/-- `event_id == NO_EVENT_ID or event_id > self.last_event_ids[slot]`. -/
def delivers (sub : Subscription) (eventId : Int) : Bool :=
  eventId == NO_EVENT_ID || eventId > sub.lastEventId

/-- The frame fits beside what is pending. -/
def hasRoom (sub : Subscription) (frame : Bytes) : Bool :=
  sub.pendingBuf.length + frame.length ≤ MAX_PENDING_BYTES

/-- The row with the frame behind what is pending, its last id moved on to a numbered one's. -/
def queue (sub : Subscription) (eventId : Int) (frame : Bytes) : Subscription :=
  { sub with
    pendingBuf := sub.pendingBuf ++ frame
    lastEventId := if eventId != NO_EVENT_ID then eventId else sub.lastEventId }

/-- The slot takes the frame: it streams, the frame is past its filter and fits. -/
def takes (sub : Subscription) (eventId : Int) (frame : Bytes) : Bool :=
  sub.isStreaming && sub.delivers eventId && sub.hasRoom frame

end Subscription

namespace SSERegistry

/-- `SSERegistry(capacity)`. -/
def new (capacity : Nat) : SSERegistry := ⟨capacity, fun _ => {}, [], fun _ => false, 0⟩

def inRange (r : SSERegistry) (slot : Int) : Bool := 0 ≤ slot && slot < r.capacity

/-- Writes one slot's row. -/
def setSlot (r : SSERegistry) (slot : Int) (sub : Subscription) : SSERegistry :=
  { r with slots := Function.update r.slots slot sub }

/-- `mark_ready`. -/
def markReady (r : SSERegistry) (slot : Int) : SSERegistry :=
  if !r.inRange slot || r.named slot then r
  else { r with named := Function.update r.named slot true, ready := r.ready ++ [slot] }

/-- `take_ready`: the slots named since the last call, forgotten. -/
def takeReady (r : SSERegistry) : SSERegistry × List Int :=
  let named := r.ready.foldl (fun named slot => Function.update named slot false) r.named
  ({ r with named := named, ready := [] }, r.ready)

/-- `subscribe`. -/
def subscribe (r : SSERegistry) (slot : Int) (url : Bytes) (lastEventId : Int) : SSERegistry :=
  if !r.inRange slot then r
  else
    let sub := r.slots slot
    let r := if sub.isStreaming then r else { r with active := r.active + 1 }
    r.setSlot slot { sub with isStreaming := true, filterUrl := url, lastEventId := lastEventId }

/-- `unsubscribe`. -/
def unsubscribe (r : SSERegistry) (slot : Int) : SSERegistry :=
  if !r.inRange slot then r
  else
    let sub := r.slots slot
    let r := if sub.isStreaming then { r with active := r.active - 1 } else r
    let r := r.setSlot slot
      { sub with isStreaming := false, filterUrl := [], lastEventId := 0, pendingBuf := [] }
    r.markReady slot

/-- The queueing `notify_frame` and `queue_frame` share. -/
def enqueue (r : SSERegistry) (slot : Int) (eventId : Int) (frame : Bytes) : SSERegistry :=
  (r.setSlot slot ((r.slots slot).queue eventId frame)).markReady slot

/-- One turn of the loop of `notify_frame`. -/
def notifySlot (url : Bytes) (eventId : Int) (frame : Bytes) (acc : SSERegistry × Nat)
    (slot : Int) : SSERegistry × Nat :=
  let r := acc.1
  let queued := acc.2
  let sub := r.slots slot
  if sub.isStreaming && sub.filterUrl == url then
    if sub.delivers eventId then
      if sub.hasRoom frame then (r.enqueue slot eventId frame, queued + 1) else (r, queued)
    else (r, queued)
  else (r, queued)

/-- `notify_frame`: the frame for every slot on `url`, and how many it was queued for. -/
def notifyFrame (r : SSERegistry) (url : Bytes) (eventId : Int) (frame : Bytes) :
    SSERegistry × Nat :=
  (slotRange r.capacity).foldl (notifySlot url eventId frame) (r, 0)

/-- `queue_frame`: the frame for one slot, and whether it was queued. -/
def queueFrame (r : SSERegistry) (slot : Int) (eventId : Int) (frame : Bytes) :
    SSERegistry × Bool :=
  if !r.inRange slot then (r, false)
  else
    let sub := r.slots slot
    if !sub.isStreaming then (r, false)
    else if sub.delivers eventId then
      if sub.hasRoom frame then (r.enqueue slot eventId frame, true) else (r, false)
    else (r, false)

/-- `is_slot_streaming`. -/
def isSlotStreaming (r : SSERegistry) (slot : Int) : Bool :=
  if !r.inRange slot then false else (r.slots slot).isStreaming

/-- `drain`: what is pending for the slot, and the outbox emptied. -/
def drain (r : SSERegistry) (slot : Int) : SSERegistry × Bytes :=
  if !r.inRange slot then (r, [])
  else
    let sub := r.slots slot
    (r.setSlot slot { sub with pendingBuf := [] }, sub.pendingBuf)

/-! ## What each does to a slot's row -/

@[simp] theorem slots_setSlot_self (r : SSERegistry) (slot : Int) (sub : Subscription) :
    (r.setSlot slot sub).slots slot = sub := by
  simp [setSlot]

theorem slots_setSlot_of_ne (r : SSERegistry) {slot s : Int} (h : s ≠ slot) (sub : Subscription) :
    (r.setSlot slot sub).slots s = r.slots s := by
  simp [setSlot, Function.update_of_ne h]

@[simp] theorem capacity_setSlot (r : SSERegistry) (slot : Int) (sub : Subscription) :
    (r.setSlot slot sub).capacity = r.capacity := rfl

@[simp] theorem capacity_markReady (r : SSERegistry) (slot : Int) :
    (r.markReady slot).capacity = r.capacity := by
  unfold markReady
  split <;> rfl

@[simp] theorem slots_markReady (r : SSERegistry) (slot : Int) :
    (r.markReady slot).slots = r.slots := by
  unfold markReady
  split <;> rfl

@[simp] theorem slots_takeReady (r : SSERegistry) : r.takeReady.1.slots = r.slots := rfl

@[simp] theorem capacity_subscribe (r : SSERegistry) (slot : Int) (url : Bytes)
    (lastEventId : Int) : (r.subscribe slot url lastEventId).capacity = r.capacity := by
  unfold subscribe
  dsimp only
  split
  · rfl
  · split <;> rfl

@[simp] theorem capacity_unsubscribe (r : SSERegistry) (slot : Int) :
    (r.unsubscribe slot).capacity = r.capacity := by
  unfold unsubscribe
  dsimp only
  split
  · rfl
  · rw [capacity_markReady]
    split <;> rfl

@[simp] theorem capacity_drain (r : SSERegistry) (slot : Int) :
    (r.drain slot).1.capacity = r.capacity := by
  unfold drain
  split <;> rfl

theorem slots_subscribe (r : SSERegistry) (slot : Int) (url : Bytes) (lastEventId : Int) (s : Int) :
    (r.subscribe slot url lastEventId).slots s =
      if r.inRange slot && s == slot then
        { r.slots slot with isStreaming := true, filterUrl := url, lastEventId := lastEventId }
      else r.slots s := by
  unfold subscribe
  cases hr : r.inRange slot with
  | false => simp
  | true =>
    rcases Decidable.em (s = slot) with rfl | hne
    · simp
    · simp only [Bool.not_true, Bool.false_eq_true, if_false, slots_setSlot_of_ne _ hne,
        Bool.true_and, beq_iff_eq, hne]
      split <;> rfl

theorem slots_unsubscribe (r : SSERegistry) (slot s : Int) :
    (r.unsubscribe slot).slots s = if r.inRange slot && s == slot then {} else r.slots s := by
  unfold unsubscribe
  cases hr : r.inRange slot with
  | false => simp
  | true =>
    rcases Decidable.em (s = slot) with rfl | hne
    · simp
    · simp only [Bool.not_true, Bool.false_eq_true, if_false, slots_markReady,
        slots_setSlot_of_ne _ hne, Bool.true_and, beq_iff_eq, hne]
      split <;> rfl

theorem slots_drain (r : SSERegistry) (slot s : Int) :
    (r.drain slot).1.slots s =
      if r.inRange slot && s == slot then { r.slots slot with pendingBuf := [] } else r.slots s := by
  unfold drain
  cases hr : r.inRange slot with
  | false => simp
  | true =>
    rcases Decidable.em (s = slot) with rfl | hne
    · simp
    · simp [slots_setSlot_of_ne _ hne, hne]

theorem drained_eq (r : SSERegistry) (slot : Int) :
    (r.drain slot).2 = if r.inRange slot then (r.slots slot).pendingBuf else [] := by
  unfold drain
  cases r.inRange slot <;> rfl

theorem slots_enqueue (r : SSERegistry) (slot : Int) (eventId : Int) (frame : Bytes) (s : Int) :
    (r.enqueue slot eventId frame).slots s =
      if s = slot then (r.slots slot).queue eventId frame else r.slots s := by
  rcases Decidable.em (s = slot) with rfl | hne
  · simp [enqueue]
  · simp [enqueue, slots_setSlot_of_ne _ hne, hne]

@[simp] theorem capacity_enqueue (r : SSERegistry) (slot : Int) (eventId : Int) (frame : Bytes) :
    (r.enqueue slot eventId frame).capacity = r.capacity := by
  simp [enqueue]

/-- `queue_frame` queues for a slot that takes the frame, and says so. -/
theorem queueFrame_eq (r : SSERegistry) (slot : Int) (eventId : Int) (frame : Bytes) :
    r.queueFrame slot eventId frame =
      if r.inRange slot && (r.slots slot).takes eventId frame then
        (r.enqueue slot eventId frame, true)
      else (r, false) := by
  unfold queueFrame Subscription.takes
  dsimp only
  cases r.inRange slot with
  | false => rfl
  | true =>
    cases (r.slots slot).isStreaming with
    | false => rfl
    | true =>
      cases (r.slots slot).delivers eventId with
      | false => rfl
      | true => cases (r.slots slot).hasRoom frame <;> rfl

@[simp] theorem inRange_queueFrame (r : SSERegistry) (slot : Int) (eventId : Int) (frame : Bytes)
    (s : Int) : (r.queueFrame slot eventId frame).1.inRange s = r.inRange s := by
  rw [queueFrame_eq]
  split <;> simp [inRange]

theorem queued_queueFrame (r : SSERegistry) (slot : Int) (eventId : Int) (frame : Bytes) :
    (r.queueFrame slot eventId frame).2 =
      (r.inRange slot && (r.slots slot).takes eventId frame) := by
  rw [queueFrame_eq]
  cases r.inRange slot && (r.slots slot).takes eventId frame <;> rfl

theorem slots_queueFrame (r : SSERegistry) (slot : Int) (eventId : Int) (frame : Bytes) (s : Int) :
    (r.queueFrame slot eventId frame).1.slots s =
      if r.inRange slot && (r.slots slot).takes eventId frame && s == slot then
        (r.slots slot).queue eventId frame
      else r.slots s := by
  rw [queueFrame_eq]
  cases r.inRange slot && (r.slots slot).takes eventId frame with
  | false => rfl
  | true => simp [slots_enqueue]

/-- A turn of the loop queues the frame for its slot, if that is on `url` and takes it. -/
theorem notifySlot_eq (url : Bytes) (eventId : Int) (frame : Bytes) (r : SSERegistry) (n : Nat)
    (slot : Int) :
    notifySlot url eventId frame (r, n) slot =
      if (r.slots slot).filterUrl == url && (r.slots slot).takes eventId frame then
        (r.enqueue slot eventId frame, n + 1)
      else (r, n) := by
  unfold notifySlot Subscription.takes
  dsimp only
  cases (r.slots slot).filterUrl == url with
  | false => cases (r.slots slot).isStreaming <;> rfl
  | true =>
    cases (r.slots slot).isStreaming with
    | false => rfl
    | true =>
      cases (r.slots slot).delivers eventId with
      | false => rfl
      | true => cases (r.slots slot).hasRoom frame <;> rfl

theorem capacity_notifyFrame (r : SSERegistry) (url : Bytes) (eventId : Int) (frame : Bytes) :
    (r.notifyFrame url eventId frame).1.capacity = r.capacity := by
  have hloop : ∀ (slots : List Int) (acc : SSERegistry × Nat),
      (slots.foldl (notifySlot url eventId frame) acc).1.capacity = acc.1.capacity := by
    intro slots
    induction slots with
    | nil => exact fun _ => rfl
    | cons slot slots ih =>
      intro acc
      rw [List.foldl_cons, ih, notifySlot_eq]
      split <;> simp
  exact hloop _ _

/-- The loop of `notify_frame` over slots of which none comes twice. -/
theorem slots_foldl_notifySlot (url : Bytes) (eventId : Int) (frame : Bytes) (slots : List Int)
    (hnodup : slots.Nodup) (r : SSERegistry) (n : Nat) (s : Int) :
    (slots.foldl (notifySlot url eventId frame) (r, n)).1.slots s =
      if decide (s ∈ slots) && ((r.slots s).filterUrl == url && (r.slots s).takes eventId frame) then
        (r.slots s).queue eventId frame
      else r.slots s := by
  induction slots generalizing r n with
  | nil => simp
  | cons slot slots ih =>
    have ⟨hnot, hrest⟩ := List.nodup_cons.mp hnodup
    rw [List.foldl_cons, notifySlot_eq]
    rcases Decidable.em (s = slot) with rfl | hne
    · -- the other turns are other slots'
      cases (r.slots s).filterUrl == url && (r.slots s).takes eventId frame with
      | false => simp [ih hrest, hnot]
      | true => simp [ih hrest, hnot, slots_enqueue]
    · cases (r.slots slot).filterUrl == url && (r.slots slot).takes eventId frame with
      | false => simp [ih hrest, hne]
      | true => simp [ih hrest, hne, slots_enqueue]

/-- `notify_frame` queues the frame for every slot on `url` that takes it. -/
theorem slots_notifyFrame (r : SSERegistry) (url : Bytes) (eventId : Int) (frame : Bytes) (s : Int) :
    (r.notifyFrame url eventId frame).1.slots s =
      if r.inRange s && ((r.slots s).filterUrl == url && (r.slots s).takes eventId frame) then
        (r.slots s).queue eventId frame
      else r.slots s := by
  rw [notifyFrame, slots_foldl_notifySlot _ _ _ _ (nodup_slotRange _)]
  simp [mem_slotRange, inRange]

end SSERegistry

end MojoHttp
