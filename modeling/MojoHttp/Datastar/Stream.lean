import MojoHttp.Sse.Replay
import MojoHttp.WebSocket.Hub

/-!
# A Datastar stream (`stream.mojo`)

A registry of subscribers with a replay journal in front of it, the newest frame of each url, and a
bus to the other workers' streams. `counter` is the shared atomic the ids of a stream on the bus come
from: the calls that read or take from it are handed its value.

* **`DatastarStream.open_pending`** — what an open leaves pending: what the slot held, then the
  catch-up, all of it or none; a catch-up taken back takes what the slot held with it.
* **`DatastarStream.pending_notify`** — what a broadcast adds to a slot's outbox.
-/

namespace MojoHttp

structure DatastarStream where
  registry : SSERegistry
  nextEventId : Int
  /-- The last `journalCap` frames, by id. -/
  journal : List Recorded
  journalCap : Int
  busWorker : Int
  /-- `shared_id_addr != 0`. -/
  sharedId : Bool
  sendLatest : Bool
  /-- The newest frame of each url, kept under `sendLatest`. -/
  latest : List Recorded
  /-- The newest id the history does not cover. -/
  floor : Int
  /-- By url, the newest id the journal has dropped. -/
  evicted : List (Bytes × Int)
  recordedAny : Bool
  /-- By slot: its latest open could not catch it up. -/
  gapped : Int → Bool
  refusedCount : Int

namespace DatastarStream

/-- `DatastarStream(capacity, journal_entries, send_latest)`. -/
def new (capacity : Nat) (journalEntries : Int) (sendLatest : Bool) : DatastarStream where
  registry := SSERegistry.new capacity
  nextEventId := 0
  journal := []
  journalCap := journalEntries
  busWorker := -1
  sharedId := false
  sendLatest := sendLatest
  latest := []
  floor := 0
  evicted := []
  recordedAny := false
  gapped _ := false
  refusedCount := 0

/-- `_current_id`. -/
def currentId (st : DatastarStream) (counter : Int) : Int :=
  if st.sharedId then counter else st.nextEventId

/-- `_next_id`: the id, and the shared counter behind it. -/
def nextId (st : DatastarStream) (counter : Int) : DatastarStream × Int × Int :=
  if st.sharedId then ({ st with nextEventId := counter + 1 }, counter + 1, counter + 1)
  else ({ st with nextEventId := st.nextEventId + 1 }, st.nextEventId + 1, counter)

/-- `_set_gapped`. -/
def setGapped (st : DatastarStream) (slot : Int) (value : Bool) : DatastarStream :=
  if st.registry.inRange slot then { st with gapped := Function.update st.gapped slot value } else st

/-- `caught_up`. -/
def caughtUp (st : DatastarStream) (slot : Int) : Bool :=
  !st.registry.inRange slot || !st.gapped slot

/-! ## The journal -/

/-- `_evicted_through`: the newest id of `url` the journal has dropped, 0 for none. -/
def evictedThrough (st : DatastarStream) (url : Bytes) : Int :=
  ((st.evicted.find? fun gone => gone.1 == url).map Prod.snd).getD 0

/-- The scan of `_note_evicted`. -/
def noteEvictedIn (url : Bytes) (eventId : Int) : List (Bytes × Int) → List (Bytes × Int)
  | [] => [(url, eventId)]
  | gone :: rest =>
    if gone.1 == url then (if eventId > gone.2 then (url, eventId) else gone) :: rest
    else gone :: noteEvictedIn url eventId rest

/-- `_note_evicted`. -/
def noteEvicted (st : DatastarStream) (url : Bytes) (eventId : Int) : DatastarStream :=
  { st with evicted := noteEvictedIn url eventId st.evicted }

/-- The scan of `_remember`. -/
def rememberIn (url : Bytes) (eventId : Int) (frame : Bytes) : List Recorded → List Recorded
  | [] => [⟨url, eventId, frame⟩]
  | kept :: rest =>
    if kept.url == url then (if eventId ≥ kept.id then ⟨url, eventId, frame⟩ else kept) :: rest
    else kept :: rememberIn url eventId frame rest

/-- `_remember`. -/
def remember (st : DatastarStream) (url : Bytes) (eventId : Int) (frame : Bytes) : DatastarStream :=
  { st with latest := rememberIn url eventId frame st.latest }

/-- `while len(self.journal_ids) > self.journal_cap`: the oldest entry goes. -/
def evictOver (st : DatastarStream) : (fuel : Nat) → DatastarStream
  | 0 => st
  | fuel + 1 =>
    match st.journal with
    | [] => st
    | gone :: kept =>
      if st.journal.length > st.journalCap then
        ({ st with journal := kept }.noteEvicted gone.url gone.id).evictOver fuel
      else st

/-- `_record`. -/
def record (st : DatastarStream) (url : Bytes) (eventId : Int) (frame : Bytes) : DatastarStream :=
  let st := if st.sendLatest then st.remember url eventId frame else st
  let st := { st with recordedAny := true }
  if st.journalCap ≤ 0 then st.noteEvicted url eventId
  else
    let st := { st with journal := insertById ⟨url, eventId, frame⟩ st.journal }
    st.evictOver st.journal.length

/-- `restore`. -/
def restore (st : DatastarStream) (url : Bytes) (eventId : Int) (frame : Bytes) : DatastarStream :=
  let st := if st.recordedAny then st else { st with floor := max st.floor (eventId - 1) }
  let st := st.record url eventId frame
  if eventId > st.nextEventId then { st with nextEventId := eventId } else st

/-! ## Fanning out -/

/-- A subscriber is due the frame: `_notify`'s own count. -/
def due (st : DatastarStream) (url : Bytes) (eventId : Int) (slot : Int) : Bool :=
  st.registry.isSlotStreaming slot && (st.registry.slots slot).filterUrl == url &&
    (st.registry.slots slot).lastEventId < eventId

/-- `_notify`. -/
def notify (st : DatastarStream) (url : Bytes) (eventId : Int) (frame : Bytes) : DatastarStream :=
  let due := (slotRange st.registry.capacity).countP (st.due url eventId)
  let reached := st.registry.notifyFrame url eventId frame
  { st with registry := reached.1, refusedCount := st.refusedCount + ((due : Int) - reached.2) }

/-- `_dispatch`: journaled, queued, and published where the stream is on the bus. -/
def dispatch (st : DatastarStream) (url : Bytes) (eventId : Int) (frame : Bytes) :
    DatastarStream × Option Published :=
  let st := (st.record url eventId frame).notify url eventId frame
  (st, if st.busWorker ≥ 0 then some ⟨url, eventId, frame⟩ else none)

/-- `patch_elements`, `patch_signals`, `execute_script`, `redirect_to` and `send_frame`: an id is
taken, the frame built around it and dispatched; a builder that raises queues nothing. -/
def broadcast (st : DatastarStream) (url : Bytes) (build : Int → Option Bytes) (counter : Int) :
    DatastarStream × Int × Option Published :=
  let taken := st.nextId counter
  match build taken.2.1 with
  | none => (taken.1, taken.2.2, none)
  | some frame =>
    let sent := taken.1.dispatch url taken.2.1 frame
    (sent.1, taken.2.2, sent.2)

/-- `deliver_peer`. -/
def deliverPeer (st : DatastarStream) (url : Bytes) (eventId : Int) (frame : Bytes) :
    DatastarStream :=
  let st := st.record url eventId frame
  let st := if eventId > st.nextEventId then { st with nextEventId := eventId } else st
  st.notify url eventId frame

/-- `enable_bus`: the shared counter is seeded, or what it is ahead by is history not held. -/
def enableBus (st : DatastarStream) (worker : Int) (counter : Int) : DatastarStream × Int :=
  let st := { st with busWorker := worker, sharedId := true }
  if st.nextEventId > counter then (st, st.nextEventId)
  else if counter > st.nextEventId then ({ st with floor := max st.floor counter }, counter)
  else (st, counter)

/-! ## The lifecycle of a slot -/

/-- The journal's frames for `url` after `lastId`. -/
def missed (st : DatastarStream) (url : Bytes) (lastId : Int) : List Recorded :=
  st.journal.filter fun entry => entry.url == url && entry.id > lastId

/-- `_replay`: every journaled frame for `url` after `lastId`, or none. -/
def replay (st : DatastarStream) (slot : Int) (url : Bytes) (lastId : Int) : DatastarStream × Bool :=
  if lastId < st.floor || lastId < st.evictedThrough url then (st, false)
  else
    let replayed := replayFrom st.registry slot (st.missed url lastId)
    if replayed.2 then ({ st with registry := replayed.1 }, true)
    else
      -- what was queued is taken back, the slot subscribed anew
      let r := (replayed.1.unsubscribe slot).subscribe slot url lastId
      ({ st with registry := r }, false)

/-- `open`: whether the stream opened (409 for a request without a slot). `lastEventId` is the
`Last-Event-ID` the request carries, as `request_last_event_id` reads it. -/
def «open» (st : DatastarStream) (slotId : Int) (url : Bytes) (lastEventId : Option Int)
    (counter : Int) : DatastarStream × Bool :=
  if slotId < 0 then (st, false)
  else if st.sendLatest then
    let r := st.registry.subscribe slotId url 0
    match st.latest.find? fun kept => kept.url == url with
    | some kept => ({ st with registry := (r.queueFrame slotId kept.id kept.frame).1 }, true)
    | none => ({ st with registry := r }, true)
  else
    match lastEventId with
    | none => ({ st with registry := st.registry.subscribe slotId url 0 }.setGapped slotId false, true)
    | some presented =>
      let ahead := presented > st.currentId counter
      let lastId := if ahead then st.currentId counter else presented
      let st := { st with registry := st.registry.subscribe slotId url lastId }.setGapped slotId false
      if ahead then (st.setGapped slotId true, true)
      else
        let replayed := st.replay slotId url lastId
        if replayed.2 then (replayed.1, true) else (replayed.1.setGapped slotId true, true)

/-- `send_to`: a complete frame for one slot, unnumbered. -/
def sendTo (st : DatastarStream) (slot : Int) (frame : Bytes) : DatastarStream × Bool :=
  let queued := st.registry.queueFrame slot NO_EVENT_ID frame
  ({ st with registry := queued.1 }, queued.2)

/-- What `_catch_up` would queue for a slot: the newest frame of its url, where it stands behind. -/
def behind (st : DatastarStream) (slot : Int) : Option Recorded :=
  if !st.registry.isSlotStreaming slot then none
  else
    match st.latest.find? fun kept => kept.url == (st.registry.slots slot).filterUrl with
    | none => none
    | some kept => if (st.registry.slots slot).lastEventId < kept.id then some kept else none

/-- `_catch_up`. -/
def catchUp (st : DatastarStream) (slot : Int) : DatastarStream :=
  match st.behind slot with
  | none => st
  | some kept => { st with registry := (st.registry.queueFrame slot kept.id kept.frame).1 }

/-- `drain`. -/
def drain (st : DatastarStream) (slot : Int) : DatastarStream × Bytes :=
  let out := st.registry.drain slot
  let st := { st with registry := out.1 }
  (if st.sendLatest then st.catchUp slot else st, out.2)

/-- `closed`. -/
def closed (st : DatastarStream) (slot : Int) : DatastarStream :=
  { st with registry := st.registry.unsubscribe slot }.setGapped slot false

end DatastarStream

end MojoHttp
