import MojoHttp.Sse.Registry

/-!
# The replay journal (`sse/replay.mojo`)

The last numbered frames, by id, and the newest id they do not cover. `insertById` is how both this
journal and a Datastar stream's keep their frames.
-/

namespace MojoHttp

/-- One broadcast frame as a journal, or the list of the newest, keeps it. -/
structure Recorded where
  url : Bytes
  id : Int
  frame : Bytes
  deriving Repr, DecidableEq

/-- The insertion of `record`, from the journal's end: behind every entry up to `eventId`. -/
def insertById (entry : Recorded) (journal : List Recorded) : List Recorded :=
  let after := (journal.reverse.takeWhile fun kept => kept.id > entry.id).length
  let pos := journal.length - after
  journal.take pos ++ entry :: journal.drop pos

/-- `queue_frame` for each entry in turn; false at the first refused. -/
def replayFrom (r : SSERegistry) (slot : Int) : List Recorded → SSERegistry × Bool
  | [] => (r, true)
  | entry :: rest =>
    let queued := r.queueFrame slot entry.id entry.frame
    if queued.2 then replayFrom queued.1 slot rest else (queued.1, false)

structure ReplayJournal where
  entries : List Recorded
  cap : Nat
  /-- The newest id it cannot replay. -/
  floor : Int
  /-- The newest id seen, 0 before any. -/
  head : Int
  deriving Repr, DecidableEq

namespace ReplayJournal

/-- `ReplayJournal(cap)`. -/
def new (cap : Int) : ReplayJournal := ⟨[], cap.toNat, 0, 0⟩

/-- `start_after`. -/
def startAfter (j : ReplayJournal) (eventId : Int) : ReplayJournal :=
  { j with floor := max j.floor eventId, head := max j.head eventId }

/-- `while len(self.ids) > self.cap`: the oldest entry goes. -/
def evictOver (j : ReplayJournal) : (fuel : Nat) → ReplayJournal
  | 0 => j
  | fuel + 1 =>
    match j.entries with
    | [] => j
    | gone :: kept =>
      if j.entries.length > j.cap then
        evictOver { j with entries := kept, floor := max j.floor gone.id } fuel
      else j

/-- `record`. -/
def record (j : ReplayJournal) (url : Bytes) (eventId : Int) (frame : Bytes) : ReplayJournal :=
  if eventId == NO_EVENT_ID then j
  else
    let j := if j.head == 0 && eventId - 1 > j.floor then { j with floor := eventId - 1 } else j
    let j := { j with head := max j.head eventId }
    if eventId ≤ j.floor then j
    else if j.cap == 0 then { j with floor := eventId }
    else
      let j := { j with entries := insertById ⟨url, eventId, frame⟩ j.entries }
      j.evictOver j.entries.length

/-- `covers`. -/
def covers (j : ReplayJournal) (lastId : Int) : Bool := lastId ≥ j.floor

/-- `catch_up`: every journaled frame of `url` after `lastId` for the slot, or none. -/
def catchUp (j : ReplayJournal) (r : SSERegistry) (slot : Int) (url : Bytes) (lastId : Int) :
    SSERegistry × Bool :=
  if !j.covers lastId then (r, false)
  else
    let replayed := replayFrom r slot
      (j.entries.filter fun entry => entry.url == url && entry.id > lastId)
    if replayed.2 then (replayed.1, true)
    else
      -- what was queued is taken back, the slot subscribed anew
      ((replayed.1.unsubscribe slot).subscribe slot url lastId, false)

end ReplayJournal

end MojoHttp
