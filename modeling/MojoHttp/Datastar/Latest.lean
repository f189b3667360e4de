import MojoHttp.Datastar.Reconnect
import MojoHttp.Sse.Readiness

/-!
# A stream of states ends at the newest (`stream.mojo`)

A stream under `send_latest`, seen from one of its slots over a run of calls: what was dispatched, what
the slot was handed since its open, and where it stands.

* **`DatastarStream.Watched.Sound.step`** — every step keeps the newest frame of each url, and a slot with
  nothing pending at it.
* **`DatastarStream.ends_at_newest`** — a slot drained twice with nothing dispatched in between was handed the
  newest frame last, and a slot with something pending is named.
-/

namespace MojoHttp

namespace DatastarStream

/-- The newest frame kept of `url`. -/
def newestOf (st : DatastarStream) (url : Bytes) : Option Recorded :=
  st.latest.find? fun kept => kept.url == url

/-! ## A run, seen from a slot -/

/-- A call on a stream of states, or the loop's taking of the slots named. -/
inductive LoopStep where
  | opened (slotId : Int) (url : Bytes) (lastEventId : Option Int) (counter : Int)
  | broadcast (url : Bytes) (build : Int → Option Bytes) (counter : Int)
  | deliverPeer (url : Bytes) (eventId : Int) (frame : Bytes)
  | drain (slot : Int)
  | closed (slot : Int)
  | enableBus (worker counter : Int)
  | takeReady

structure Watched where
  st : DatastarStream
  dispatched : List Recorded
  /-- Handed to the slot since its last open. -/
  handed : Bytes
  /-- What that open found in its outbox. -/
  found : Bytes

/-- A step, seen from slot `s`. -/
def Watched.step (s : Int) (w : Watched) : LoopStep → Watched
  | .opened slotId url lastEventId counter =>
    { w with
      st := (w.st.open slotId url lastEventId counter).1
      handed := if slotId = s then [] else w.handed
      found := if slotId = s then w.st.pending s else w.found }
  | .broadcast url build counter =>
    { w with
      st := (w.st.broadcast url build counter).1
      dispatched := w.dispatched ++ w.st.recordedBy (.broadcast url build counter) }
  | .deliverPeer url eventId frame =>
    { w with
      st := w.st.deliverPeer url eventId frame
      dispatched := w.dispatched ++ w.st.recordedBy (.deliverPeer url eventId frame) }
  | .drain slot =>
    { w with
      st := (w.st.drain slot).1
      handed := if slot = s then w.handed ++ (w.st.drain slot).2 else w.handed }
  | .closed slot => { w with st := w.st.closed slot }
  | .enableBus worker counter => { w with st := (w.st.enableBus worker counter).1 }
  | .takeReady => { w with st := { w.st with registry := w.st.registry.takeReady.1 } }

def statesSystem (capacity : Nat) (journalEntries : Int) (s : Int) : LabelledSystem Watched LoopStep :=
  ⟨⟨new capacity journalEntries true, [], [], []⟩, fun w l => some (w.step s l)⟩

/-! ## The newest frame of each url -/

theorem find?_rememberIn (url : Bytes) (eventId : Int) (frame : Bytes) (latest : List Recorded) (other : Bytes) :
    (rememberIn url eventId frame latest).find? (fun kept => kept.url == other) =
      if other = url then
        some ((latest.find? fun kept => kept.url == url).elim ⟨url, eventId, frame⟩
          fun kept => if eventId ≥ kept.id then ⟨url, eventId, frame⟩ else kept)
      else latest.find? fun kept => kept.url == other := by
  induction latest with
  | nil =>
    rcases Decidable.em (other = url) with rfl | hne
    · simp [rememberIn]
    · simp [rememberIn, hne, Ne.symm hne]
  | cons kept rest ih =>
    unfold rememberIn
    rcases Decidable.em (kept.url = url) with hurl | hurl
    · have hsame : (if eventId ≥ kept.id then (⟨url, eventId, frame⟩ : Recorded) else kept).url = url := by
        split
        · rfl
        · exact hurl
      rw [if_pos (beq_iff_eq.mpr hurl), List.find?_cons, List.find?_cons, List.find?_cons, hsame, hurl]
      rcases Decidable.em (other = url) with rfl | hne
      · rw [beq_self_eq_true, if_pos rfl]
        rfl
      · rw [if_neg hne, beq_false_of_ne (Ne.symm hne)]
    · rw [if_neg (by rw [beq_iff_eq]; exact hurl), List.find?_cons, List.find?_cons, List.find?_cons]
      rw [beq_false_of_ne hurl]
      cases hother : kept.url == other with
      | false => exact ih
      | true =>
        have hne : other ≠ url := fun h => hurl ((eq_of_beq hother).trans h)
        rw [if_neg hne]

/-- The stream keeps the newest frame of each url of those dispatched. -/
structure Remembers (st : DatastarStream) (dispatched : List Recorded) : Prop where
  states : st.sendLatest = true
  newest : ∀ {url kept}, st.newestOf url = some kept →
    kept ∈ dispatched ∧ kept.url = url ∧ ∀ e ∈ dispatched, e.url = url → e.id ≤ kept.id
  nothing : ∀ {url}, st.newestOf url = none → ∀ e ∈ dispatched, e.url ≠ url

theorem Remembers.same {st st' : DatastarStream} {dispatched : List Recorded} (hr : st.Remembers dispatched)
    (hstates : st'.sendLatest = st.sendLatest) (hlatest : st'.latest = st.latest) : st'.Remembers dispatched := by
  refine ⟨hstates.trans hr.states, fun hkept => ?_, fun hnone => ?_⟩
  · rw [newestOf, hlatest] at hkept
    exact hr.newest hkept
  · rw [newestOf, hlatest] at hnone
    exact hr.nothing hnone

/-- A frame recorded is the newest of its url, unless a newer one is kept. -/
theorem Remembers.remember {st st' : DatastarStream} {dispatched : List Recorded} (hr : st.Remembers dispatched)
    {url : Bytes} {eventId : Int} {frame : Bytes} (hstates : st'.sendLatest = st.sendLatest)
    (hlatest : st'.latest = rememberIn url eventId frame st.latest) :
    st'.Remembers (dispatched ++ [⟨url, eventId, frame⟩]) := by
  have hfind := find?_rememberIn url eventId frame st.latest
  have hlast : ∀ {e : Recorded} {other : Bytes}, e ∈ [(⟨url, eventId, frame⟩ : Recorded)] → e.url = other →
      e.id = eventId ∧ other = url := by
    intro e other he hurl
    rw [List.mem_singleton.mp he] at hurl ⊢
    exact ⟨rfl, hurl.symm⟩
  refine ⟨hstates.trans hr.states, @fun other kept hkept => ?_, @fun other hnone => ?_⟩
  · rw [newestOf, hlatest, hfind] at hkept
    split at hkept
    · next hurl =>
      rw [hurl]
      cases hbefore : st.latest.find? fun kept => kept.url == url with
      | none =>
        rw [hbefore] at hkept
        have hnew := Option.some.inj hkept
        rw [← hnew]
        refine ⟨List.mem_append_right _ (List.mem_singleton_self _), rfl, fun e he heurl => ?_⟩
        rcases List.mem_append.mp he with he | he
        · exact absurd heurl (hr.nothing hbefore e he)
        · exact Int.le_of_eq (hlast he heurl).1
      | some old =>
        rw [hbefore] at hkept
        have hnew := Option.some.inj hkept
        obtain ⟨hold, holdUrl, holdMax⟩ := hr.newest hbefore
        rw [Option.elim] at hnew
        split at hnew
        · next hge =>
          rw [← hnew]
          refine ⟨List.mem_append_right _ (List.mem_singleton_self _), rfl, fun e he heurl => ?_⟩
          rcases List.mem_append.mp he with he | he
          · exact (holdMax e he heurl).trans hge
          · exact Int.le_of_eq (hlast he heurl).1
        · next hlt =>
          rw [← hnew]
          refine ⟨List.mem_append_left _ hold, holdUrl, fun e he heurl => ?_⟩
          rcases List.mem_append.mp he with he | he
          · exact holdMax e he heurl
          · rw [(hlast he heurl).1]
            exact Int.le_of_lt (Int.not_le.mp hlt)
    · next hne =>
      obtain ⟨hmem, hurl, hmax⟩ := hr.newest hkept
      refine ⟨List.mem_append_left _ hmem, hurl, fun e he heurl => ?_⟩
      rcases List.mem_append.mp he with he | he
      · exact hmax e he heurl
      · exact absurd (hlast he heurl).2 hne
  · rw [newestOf, hlatest, hfind] at hnone
    split at hnone
    · cases hnone
    · next hne =>
      intro e he heurl
      rcases List.mem_append.mp he with he | he
      · exact hr.nothing hnone e he heurl
      · exact hne (hlast he heurl).2

/-! ## Where a slot stands -/

/-- The slot has seen the frame, or no outbox has room for it. -/
def Stands (newest : Option Recorded) (sub : Subscription) : Prop :=
  ∀ kept, newest = some kept → kept.id ≤ sub.lastEventId ∨ MAX_PENDING_BYTES < kept.frame.length

/-- A slot with nothing pending that is offered the frame. -/
theorem stands_offered {sub : Subscription} {kept : Recorded} (hstreams : sub.isStreaming = true)
    (hempty : sub.pendingBuf = []) (hid : kept.id ≠ NO_EVENT_ID) :
    Stands (some kept) (if sub.takes kept.id kept.frame then sub.queue kept.id kept.frame else sub) := by
  intro e he
  obtain rfl := Option.some.inj he
  split
  · left
    show kept.id ≤ if kept.id != NO_EVENT_ID then kept.id else _
    rw [if_pos (bne_iff_ne.mpr hid)]
  · next hrefused =>
    rw [Subscription.takes, hstreams, Bool.true_and, Bool.and_eq_true, not_and_or] at hrefused
    rcases hrefused with hseen | hfull
    · left
      rw [Subscription.delivers, Bool.or_eq_true, decide_eq_true_eq, not_or] at hseen
      omega
    · right
      rw [Subscription.hasRoom, hempty, decide_eq_true_eq, List.length_nil, Nat.zero_add] at hfull
      exact Nat.not_le.mp hfull

theorem Stands.mono {newest : Option Recorded} {sub sub' : Subscription} (h : Stands newest sub)
    (hle : sub.lastEventId ≤ sub'.lastEventId) : Stands newest sub' :=
  fun kept hkept => (h kept hkept).imp_left fun hseen => hseen.trans hle

/-- A slot that was handed frames of its url since its open, or holds them, and stands at the last. -/
structure Served (handed found : Bytes) (dispatched : List Recorded) (newest : Option Recorded)
    (row : Subscription) : Prop where
  line : ∃ frames : List Recorded, handed ++ row.pendingBuf = found ++ (frames.map Recorded.frame).flatten ∧
    (∀ e ∈ frames, e ∈ dispatched ∧ e.url = row.filterUrl) ∧
      (frames.getLast?.map Recorded.id).getD 0 = row.lastEventId
  /-- With nothing pending it stands at the newest. -/
  stands : row.pendingBuf = [] → Stands newest row

/-- More was dispatched that is not for the slot. -/
theorem Served.more {handed found : Bytes} {dispatched : List Recorded} {newest : Option Recorded}
    {row : Subscription} (h : Served handed found dispatched newest row) (entry : Recorded) :
    Served handed found (dispatched ++ [entry]) newest row := by
  obtain ⟨frames, hbytes, hown, hlast⟩ := h.line
  refine ⟨⟨frames, hbytes, fun e he => ?_, hlast⟩, h.stands⟩
  exact ⟨List.mem_append_left _ (hown e he).1, (hown e he).2⟩

/-- The slot is offered a frame of its url, and takes it or does not. -/
theorem line_offered {handed found : Bytes} {dispatched : List Recorded} {row : Subscription}
    (hline : ∃ frames : List Recorded, handed ++ row.pendingBuf = found ++ (frames.map Recorded.frame).flatten ∧
      (∀ e ∈ frames, e ∈ dispatched ∧ e.url = row.filterUrl) ∧
        (frames.getLast?.map Recorded.id).getD 0 = row.lastEventId) {entry : Recorded}
    (hentry : entry ∈ dispatched ∧ entry.url = row.filterUrl) (hid : entry.id ≠ NO_EVENT_ID) {row' : Subscription}
    (hrow : row' = if row.takes entry.id entry.frame then row.queue entry.id entry.frame else row) :
    ∃ frames : List Recorded, handed ++ row'.pendingBuf = found ++ (frames.map Recorded.frame).flatten ∧
      (∀ e ∈ frames, e ∈ dispatched ∧ e.url = row'.filterUrl) ∧
        (frames.getLast?.map Recorded.id).getD 0 = row'.lastEventId := by
  obtain ⟨frames, hbytes, hown, hlast⟩ := hline
  split at hrow
  · refine ⟨frames ++ [entry], ?_, fun e he => ?_, ?_⟩
    · rw [hrow]
      show handed ++ (row.pendingBuf ++ entry.frame) = _
      rw [← List.append_assoc, hbytes, List.map_append, List.flatten_append, List.append_assoc]
      simp
    · rw [hrow]
      rcases List.mem_append.mp he with he | he
      · exact hown e he
      · rw [List.mem_singleton.mp he]
        exact hentry
    · rw [List.getLast?_append, List.getLast?_singleton, hrow]
      show entry.id = if entry.id != NO_EVENT_ID then entry.id else _
      rw [if_pos (bne_iff_ne.mpr hid)]
  · rw [hrow]
    exact ⟨frames, hbytes, hown, hlast⟩

/-- **A frame dispatched** on the slot's url: the slot takes it, or has seen it, or has something pending. -/
theorem Served.dispatch {handed found : Bytes} {dispatched : List Recorded} {newest : Option Recorded}
    {row row' : Subscription} (h : Served handed found dispatched newest row) {entry : Recorded}
    (hurl : entry.url = row.filterUrl) (hid : entry.id ≠ NO_EVENT_ID) (hstreams : row.isStreaming = true)
    (hrow : row' = if row.takes entry.id entry.frame then row.queue entry.id entry.frame else row) :
    Served handed found (dispatched ++ [entry])
      (some (newest.elim entry fun kept => if entry.id ≥ kept.id then entry else kept)) row' := by
  have hentry : entry ∈ dispatched ++ [entry] := List.mem_append_right _ (List.mem_singleton_self entry)
  refine ⟨line_offered (h.more entry).line ⟨hentry, hurl⟩ hid hrow, fun hempty => ?_⟩
  have hle : row.lastEventId ≤ row'.lastEventId := by
    rw [hrow]
    split
    · next htakes => exact SSERegistry.lastEventId_queue htakes
    · exact Int.le_refl _
  have hbefore : row.pendingBuf = [] := by
    rw [hrow] at hempty
    split at hempty
    · exact (List.append_eq_nil_iff.mp hempty).1
    · exact hempty
  have hnew : Stands (some entry) row' := by
    rw [hrow]
    exact stands_offered hstreams hbefore hid
  cases hnewest : newest with
  | none => exact hnew
  | some kept =>
    show Stands (some (if entry.id ≥ kept.id then entry else kept)) row'
    split
    · exact hnew
    · rw [← hnewest]
      exact (h.stands hbefore).mono hle

/-- **A drain** of the slot's row, and the catch-up behind it. -/
theorem Served.drained {handed found : Bytes} {dispatched : List Recorded} {newest : Option Recorded}
    {row row' : Subscription} (h : Served handed found dispatched newest row) (hstreams : row.isStreaming = true)
    (hnewest : ∀ kept, newest = some kept → kept.id ≠ NO_EVENT_ID ∧ kept ∈ dispatched ∧ kept.url = row.filterUrl)
    (hrow : row' = newest.elim { row with pendingBuf := [] } fun kept =>
      if Subscription.takes { row with pendingBuf := [] } kept.id kept.frame then
        Subscription.queue { row with pendingBuf := [] } kept.id kept.frame
      else { row with pendingBuf := [] }) :
    Served (handed ++ row.pendingBuf) found dispatched newest row' ∧ Stands newest row' ∧
      (Stands newest row → row'.pendingBuf = []) := by
  have hline : ∃ frames : List Recorded,
      (handed ++ row.pendingBuf) ++ ({ row with pendingBuf := [] } : Subscription).pendingBuf =
        found ++ (frames.map Recorded.frame).flatten ∧
        (∀ e ∈ frames, e ∈ dispatched ∧ e.url = ({ row with pendingBuf := [] } : Subscription).filterUrl) ∧
          (frames.getLast?.map Recorded.id).getD 0 =
            ({ row with pendingBuf := [] } : Subscription).lastEventId := by
    obtain ⟨frames, hbytes, hframes⟩ := h.line
    exact ⟨frames, (List.append_nil _).trans hbytes, hframes⟩
  cases hkept : newest with
  | none =>
    rw [hkept] at hrow
    have hnothing : Stands none row' := fun _ he => (nomatch he)
    rw [hrow] at hnothing ⊢
    exact ⟨⟨hline, fun _ => hnothing⟩, hnothing, fun _ => rfl⟩
  | some kept =>
    obtain ⟨hid, hentry⟩ := hnewest kept hkept
    rw [hkept] at hrow
    have hstands : Stands (some kept) row' := by
      rw [hrow]
      exact stands_offered hstreams rfl hid
    refine ⟨⟨line_offered hline hentry hid hrow, fun _ => hstands⟩, hstands, fun hbefore => ?_⟩
    -- a frame that it has seen, or that has no room, is not queued again
    have hrefused : Subscription.takes { row with pendingBuf := [] } kept.id kept.frame = false := by
      rw [Subscription.takes, Subscription.delivers, Subscription.hasRoom, beq_false_of_ne hid]
      rcases hbefore kept rfl with hseen | hlong
      · rw [decide_eq_false (show ¬ kept.id > row.lastEventId from Int.not_lt.mpr hseen)]
        simp
      · rw [decide_eq_false (show ¬ ([] : Bytes).length + kept.frame.length ≤ MAX_PENDING_BYTES by
          rw [List.length_nil, Nat.zero_add]
          exact Nat.not_le.mpr hlong), Bool.and_false]
    rw [hrow]
    show (if Subscription.takes { row with pendingBuf := [] } kept.id kept.frame then
      Subscription.queue { row with pendingBuf := [] } kept.id kept.frame
      else { row with pendingBuf := [] } : Subscription).pendingBuf = []
    rw [hrefused]
    rfl

/-! ## Every step -/

/-- What a run keeps, for a slot. -/
structure Watched.Sound (s : Int) (w : Watched) : Prop where
  numbered : ∀ e ∈ w.dispatched, 0 < e.id
  remembers : w.st.Remembers w.dispatched
  served : w.st.registry.isSlotStreaming s = true →
    Served w.handed w.found w.dispatched (w.st.newestOf (w.st.registry.slots s).filterUrl)
      (w.st.registry.slots s)

/-- A step that is not about the slot leaves it as it was. -/
structure Unchanged (s : Int) (w w' : Watched) : Prop where
  states : w'.st.sendLatest = w.st.sendLatest
  latest : w'.st.latest = w.st.latest
  range : w'.st.registry.inRange s = w.st.registry.inRange s
  row : w'.st.registry.slots s = w.st.registry.slots s
  dispatched : w'.dispatched = w.dispatched
  handed : w'.handed = w.handed
  found : w'.found = w.found

theorem Watched.Sound.same {s : Int} {w w' : Watched} (hw : w.Sound s) (h : Unchanged s w w') : w'.Sound s := by
  refine ⟨?_, ?_, fun hstreams => ?_⟩
  · rw [h.dispatched]
    exact hw.numbered
  · rw [h.dispatched]
    exact hw.remembers.same h.states h.latest
  · rw [SSERegistry.isSlotStreaming_iff, h.range, h.row, ← SSERegistry.isSlotStreaming_iff] at hstreams
    rw [h.row, h.handed, h.found, h.dispatched, newestOf, h.latest]
    exact hw.served hstreams

/-- A step behind which the slot is not streaming. -/
theorem Watched.Sound.idle {s : Int} {w w' : Watched} (hw : w.Sound s)
    (hstates : w'.st.sendLatest = w.st.sendLatest) (hlatest : w'.st.latest = w.st.latest)
    (hidle : w'.st.registry.isSlotStreaming s = false) (hdispatched : w'.dispatched = w.dispatched) : w'.Sound s := by
  refine ⟨?_, ?_, fun hstreams => ?_⟩
  · rw [hdispatched]
    exact hw.numbered
  · rw [hdispatched]
    exact hw.remembers.same hstates hlatest
  · rw [hidle] at hstreams
    cases hstreams

/-- **A frame dispatched** goes to the slot if it is on its url and takes it. -/
theorem Watched.Sound.dispatch {s : Int} {w w' : Watched} (hw : w.Sound s) {entry : Recorded}
    (hid : 0 < entry.id) (hstates : w'.st.sendLatest = w.st.sendLatest)
    (hlatest : w'.st.latest = rememberIn entry.url entry.id entry.frame w.st.latest)
    (hregistry : w'.st.registry = (w.st.registry.notifyFrame entry.url entry.id entry.frame).1)
    (hdispatched : w'.dispatched = w.dispatched ++ [entry]) (hhanded : w'.handed = w.handed)
    (hfound : w'.found = w.found) : w'.Sound s := by
  have hid' : entry.id ≠ NO_EVENT_ID := by
    rw [NO_EVENT_ID]
    omega
  refine ⟨fun e he => ?_, ?_, fun hstreams => ?_⟩
  · rw [hdispatched] at he
    rcases List.mem_append.mp he with he | he
    · exact hw.numbered e he
    · rw [List.mem_singleton.mp he]
      exact hid
  · rw [hdispatched]
    exact hw.remembers.remember hstates hlatest
  · have hrow := SSERegistry.slots_notifyFrame w.st.registry entry.url entry.id entry.frame s
    have hrange : w'.st.registry.inRange s = w.st.registry.inRange s := by
      unfold SSERegistry.inRange
      rw [hregistry, SSERegistry.capacity_notifyFrame]
    rw [← hregistry] at hrow
    rw [SSERegistry.isSlotStreaming_iff, hrange] at hstreams
    obtain ⟨hin, hstreams⟩ := hstreams
    rw [hin, Bool.true_and] at hrow
    rw [hhanded, hfound, hdispatched]
    have hnewest := find?_rememberIn entry.url entry.id entry.frame w.st.latest
      (w'.st.registry.slots s).filterUrl
    rw [← hlatest] at hnewest
    change w'.st.newestOf _ = _ at hnewest
    have hserved := hw.served
    rw [SSERegistry.isSlotStreaming_iff] at hserved
    cases hon : (w.st.registry.slots s).filterUrl == entry.url with
    | false =>
      rw [hon, Bool.false_and, if_neg Bool.false_ne_true] at hrow
      rw [hrow] at hstreams hnewest ⊢
      rw [if_neg (beq_eq_false_iff_ne.mp hon)] at hnewest
      rw [hnewest]
      exact (hserved ⟨hin, hstreams⟩).more entry
    | true =>
      rw [hon, Bool.true_and] at hrow
      have hsame : (w'.st.registry.slots s).filterUrl = (w.st.registry.slots s).filterUrl ∧
          (w'.st.registry.slots s).isStreaming = (w.st.registry.slots s).isStreaming := by
        rw [hrow]
        split
        · exact ⟨rfl, rfl⟩
        · exact ⟨rfl, rfl⟩
      have hurl := eq_of_beq hon
      rw [hsame.2] at hstreams
      rw [hsame.1, if_pos hurl] at hnewest
      have hoffered := (hserved ⟨hin, hstreams⟩).dispatch hurl.symm hid' hstreams hrow
      rw [hurl] at hoffered
      rw [hsame.1, hnewest]
      exact hoffered

/-- The row a subscription under `send_latest` leaves. -/
theorem open_states {st : DatastarStream} (hstates : st.sendLatest = true) {slotId : Int} (hslot : ¬ slotId < 0)
    (url : Bytes) (lastEventId : Option Int) (counter : Int) :
    (st.open slotId url lastEventId counter).1 = { st with
      registry :=
        match st.newestOf url with
        | some kept => ((st.registry.subscribe slotId url 0).queueFrame slotId kept.id kept.frame).1
        | none => st.registry.subscribe slotId url 0 } := by
  unfold DatastarStream.open newestOf
  rw [if_neg hslot, if_pos hstates]
  dsimp only
  cases st.latest.find? fun kept => kept.url == url with
  | none => rfl
  | some kept => rfl

theorem inRange_subscribe (r : SSERegistry) (slot : Int) (url : Bytes) (lastEventId s : Int) :
    (r.subscribe slot url lastEventId).inRange s = r.inRange s := by
  unfold SSERegistry.inRange
  rw [SSERegistry.capacity_subscribe]

/-- An open of another slot. -/
theorem unchanged_opened {s : Int} {w : Watched} (hw : w.Sound s) {slotId : Int} (hne : s ≠ slotId) (url : Bytes)
    (lastEventId : Option Int) (counter : Int) :
    Unchanged s w (w.step s (.opened slotId url lastEventId counter)) := by
  have hhanded : (w.step s (.opened slotId url lastEventId counter)).handed = w.handed := if_neg (Ne.symm hne)
  have hfound : (w.step s (.opened slotId url lastEventId counter)).found = w.found := if_neg (Ne.symm hne)
  have hst : (w.step s (.opened slotId url lastEventId counter)).st =
      (w.st.open slotId url lastEventId counter).1 := rfl
  rcases Decidable.em (slotId < 0) with hneg | hslot
  · -- refused: nothing of it happened
    have hrefused : (w.st.open slotId url lastEventId counter).1 = w.st := by
      unfold DatastarStream.open
      rw [if_pos hneg]
    rw [hrefused] at hst
    exact ⟨by rw [hst], by rw [hst], by rw [hst], by rw [hst], rfl, hhanded, hfound⟩
  · rw [open_states hw.remembers.states hslot] at hst
    have hrow : (w.st.registry.subscribe slotId url 0).slots s = w.st.registry.slots s := by
      rw [SSERegistry.slots_subscribe, beq_false_of_ne hne, Bool.and_false, if_neg Bool.false_ne_true]
    refine ⟨by rw [hst], by rw [hst], ?_, ?_, rfl, hhanded, hfound⟩
    · rw [hst]
      dsimp only
      split
      · rw [SSERegistry.inRange_queueFrame, inRange_subscribe]
      · exact inRange_subscribe w.st.registry slotId url 0 s
    · rw [hst]
      dsimp only
      split
      · rw [SSERegistry.slots_queueFrame, beq_false_of_ne hne, Bool.and_false, if_neg Bool.false_ne_true]
        exact hrow
      · exact hrow

/-- **An open** of the slot offers it the newest frame of its url. -/
theorem Watched.Sound.opened {s : Int} {w : Watched} (hw : w.Sound s) (url : Bytes) (lastEventId : Option Int)
    (counter : Int) : (w.step s (.opened s url lastEventId counter)).Sound s := by
  have hhanded : (w.step s (.opened s url lastEventId counter)).handed = [] := if_pos rfl
  have hfound : (w.step s (.opened s url lastEventId counter)).found = w.st.pending s := if_pos rfl
  have hdispatched : (w.step s (.opened s url lastEventId counter)).dispatched = w.dispatched := rfl
  have hst : (w.step s (.opened s url lastEventId counter)).st = (w.st.open s url lastEventId counter).1 := rfl
  generalize w.step s (.opened s url lastEventId counter) = w' at hhanded hfound hdispatched hst ⊢
  have hin : w'.st.registry.isSlotStreaming s = true → w.st.registry.inRange s = true := by
    intro hstreams
    rw [SSERegistry.isSlotStreaming_iff] at hstreams
    have hrange : w'.st.registry.inRange s = w.st.registry.inRange s := by
      rw [hst]
      unfold DatastarStream.open
      split
      · rfl
      · rw [if_pos hw.remembers.states]
        dsimp only
        split
        · rw [SSERegistry.inRange_queueFrame, inRange_subscribe]
        · exact inRange_subscribe w.st.registry s url 0 s
    exact hrange.symm.trans hstreams.1
  have hsame : w'.st.sendLatest = w.st.sendLatest ∧ w'.st.latest = w.st.latest := by
    rw [hst]
    unfold DatastarStream.open
    split
    · exact ⟨rfl, rfl⟩
    · rw [if_pos hw.remembers.states]
      dsimp only
      split
      · exact ⟨rfl, rfl⟩
      · exact ⟨rfl, rfl⟩
  refine ⟨?_, ?_, fun hstreams => ?_⟩
  · rw [hdispatched]
    exact hw.numbered
  · rw [hdispatched]
    exact hw.remembers.same hsame.1 hsame.2
  · have hin := hin hstreams
    have hslot : ¬ s < 0 := by
      rw [SSERegistry.inRange, Bool.and_eq_true, decide_eq_true_eq] at hin
      omega
    rw [open_states hw.remembers.states hslot] at hst
    have hsubscribed := SSERegistry.slots_subscribe w.st.registry s url 0 s
    rw [hin, beq_self_eq_true, Bool.true_and, if_pos rfl] at hsubscribed
    have hline : ∃ frames : List Recorded, [] ++ ((w.st.registry.subscribe s url 0).slots s).pendingBuf =
        w.st.pending s ++ (frames.map Recorded.frame).flatten ∧
          (∀ e ∈ frames, e ∈ w.dispatched ∧ e.url = ((w.st.registry.subscribe s url 0).slots s).filterUrl) ∧
            (frames.getLast?.map Recorded.id).getD 0 =
              ((w.st.registry.subscribe s url 0).slots s).lastEventId := by
      rw [hsubscribed]
      exact ⟨[], (List.append_nil _).symm, fun e he => absurd he List.not_mem_nil, rfl⟩
    rw [hhanded, hfound, hdispatched, newestOf, hsame.2]
    cases hnewest : w.st.newestOf url with
    | none =>
      have hrow : w'.st.registry.slots s = (w.st.registry.subscribe s url 0).slots s := by
        rw [hst, hnewest]
      rw [hrow]
      refine ⟨hline, fun _ kept hkept => ?_⟩
      rw [hsubscribed] at hkept
      cases hnewest.symm.trans hkept
    | some kept =>
      obtain ⟨hmem, hurl, -⟩ := hw.remembers.newest hnewest
      have hid' : kept.id ≠ NO_EVENT_ID := by
        have hid := hw.numbered kept hmem
        rw [NO_EVENT_ID]
        omega
      have hrow := SSERegistry.slots_queueFrame (w.st.registry.subscribe s url 0) s kept.id kept.frame s
      rw [inRange_subscribe, hin, Bool.true_and, beq_self_eq_true, Bool.and_true] at hrow
      have hregistry : w'.st.registry =
          ((w.st.registry.subscribe s url 0).queueFrame s kept.id kept.frame).1 := by
        rw [hst, hnewest]
      rw [← hregistry] at hrow
      have hentry : kept ∈ w.dispatched ∧ kept.url = ((w.st.registry.subscribe s url 0).slots s).filterUrl := by
        rw [hsubscribed]
        exact ⟨hmem, hurl⟩
      have hfilter : (w'.st.registry.slots s).filterUrl = url := by
        rw [hrow, hsubscribed]
        split
        · rfl
        · rfl
      refine ⟨line_offered hline hentry hid' hrow, fun hempty => ?_⟩
      rw [hfilter]
      change Stands (w.st.newestOf url) _
      rw [hnewest, hrow]
      refine stands_offered (by rw [hsubscribed]) ?_ hid'
      rw [hrow] at hempty
      split at hempty
      · exact (List.append_eq_nil_iff.mp hempty).1
      · exact hempty

/-! ## A drain -/

theorem drain_states {st : DatastarStream} (hstates : st.sendLatest = true) (slot : Int) :
    (st.drain slot).1 = { st with registry := (st.registry.drain slot).1 }.catchUp slot := by
  unfold drain
  dsimp only
  rw [if_pos hstates]

theorem catchUp_fields (st : DatastarStream) (slot : Int) :
    (st.catchUp slot).sendLatest = st.sendLatest ∧ (st.catchUp slot).latest = st.latest ∧
      ∀ s, (st.catchUp slot).registry.inRange s = st.registry.inRange s := by
  unfold catchUp
  split
  · exact ⟨rfl, rfl, fun _ => rfl⟩
  · exact ⟨rfl, rfl, fun s => SSERegistry.inRange_queueFrame st.registry slot _ _ s⟩

theorem slots_catchUp_of_ne (st : DatastarStream) {slot s : Int} (hne : s ≠ slot) :
    (st.catchUp slot).registry.slots s = st.registry.slots s := by
  unfold catchUp
  split
  · rfl
  · next kept _ =>
    show (st.registry.queueFrame slot kept.id kept.frame).1.slots s = _
    rw [SSERegistry.slots_queueFrame, beq_false_of_ne hne, Bool.and_false, if_neg Bool.false_ne_true]

theorem behind_of_newestOf_none {st : DatastarStream} {s : Int} (hstreams : st.registry.isSlotStreaming s = true)
    (hnewest : st.newestOf (st.registry.slots s).filterUrl = none) : st.behind s = none := by
  have hfind : (st.latest.find? fun kept => kept.url == (st.registry.slots s).filterUrl) = none := hnewest
  rw [behind, hstreams, Bool.not_true, if_neg Bool.false_ne_true, hfind]

theorem behind_of_newestOf {st : DatastarStream} {s : Int} {kept : Recorded}
    (hstreams : st.registry.isSlotStreaming s = true)
    (hnewest : st.newestOf (st.registry.slots s).filterUrl = some kept) :
    st.behind s = if (st.registry.slots s).lastEventId < kept.id then some kept else none := by
  have hfind : (st.latest.find? fun kept => kept.url == (st.registry.slots s).filterUrl) = some kept := hnewest
  rw [behind, hstreams, Bool.not_true, if_neg Bool.false_ne_true, hfind]

/-- A catch-up offers the slot the newest frame of its url: one that it has seen is not past its filter. -/
theorem slots_catchUp {st : DatastarStream} {s : Int} (hstreams : st.registry.isSlotStreaming s = true)
    (hnumbered : ∀ kept, st.newestOf (st.registry.slots s).filterUrl = some kept → kept.id ≠ NO_EVENT_ID) :
    (st.catchUp s).registry.slots s =
      (st.newestOf (st.registry.slots s).filterUrl).elim (st.registry.slots s) fun kept =>
        if (st.registry.slots s).takes kept.id kept.frame then (st.registry.slots s).queue kept.id kept.frame
        else st.registry.slots s := by
  have hin := (SSERegistry.isSlotStreaming_iff.mp hstreams).1
  cases hnewest : st.newestOf (st.registry.slots s).filterUrl with
  | none => rw [catchUp, behind_of_newestOf_none hstreams hnewest, Option.elim]
  | some kept =>
    rw [catchUp, behind_of_newestOf hstreams hnewest, Option.elim]
    by_cases hbehind : (st.registry.slots s).lastEventId < kept.id
    · rw [if_pos hbehind]
      show (st.registry.queueFrame s kept.id kept.frame).1.slots s = _
      rw [SSERegistry.slots_queueFrame, hin, Bool.true_and, beq_self_eq_true, Bool.and_true]
    · have hfilter : (st.registry.slots s).takes kept.id kept.frame = false := by
        rw [Subscription.takes, Subscription.delivers, beq_false_of_ne (hnumbered kept hnewest),
          decide_eq_false hbehind]
        simp
      rw [if_neg hbehind, hfilter, if_neg Bool.false_ne_true]

theorem isSlotStreaming_catchUp (st : DatastarStream) (slot s : Int) :
    (st.catchUp slot).registry.isSlotStreaming s = st.registry.isSlotStreaming s := by
  have hrange := (catchUp_fields st slot).2.2 s
  have hrow : ((st.catchUp slot).registry.slots s).isStreaming = (st.registry.slots s).isStreaming := by
    unfold catchUp
    split
    · rfl
    · next kept _ =>
      show ((st.registry.queueFrame slot kept.id kept.frame).1.slots s).isStreaming = _
      rw [SSERegistry.slots_queueFrame]
      split
      · next hself =>
        rw [Bool.and_eq_true, beq_iff_eq] at hself
        rw [hself.2]
        rfl
      · rfl
  unfold SSERegistry.isSlotStreaming
  rw [hrange, hrow]

theorem isSlotStreaming_drain (r : SSERegistry) (slot s : Int) :
    (r.drain slot).1.isSlotStreaming s = r.isSlotStreaming s := by
  have hrow : ((r.drain slot).1.slots s).isStreaming = (r.slots s).isStreaming := by
    rw [SSERegistry.slots_drain]
    split
    · next hself =>
      rw [Bool.and_eq_true, beq_iff_eq] at hself
      rw [hself.2]
    · rfl
  unfold SSERegistry.isSlotStreaming SSERegistry.inRange
  rw [SSERegistry.capacity_drain, hrow]

/-- The slot stands at the newest frame of its url, if it is streaming. -/
def Watched.Stands (s : Int) (w : Watched) : Prop :=
  w.st.registry.isSlotStreaming s = true →
    DatastarStream.Stands (w.st.newestOf (w.st.registry.slots s).filterUrl) (w.st.registry.slots s)

/-- A drain of another slot. -/
theorem unchanged_drain {s : Int} {w : Watched} (hw : w.Sound s) {slot : Int} (hne : s ≠ slot) :
    Unchanged s w (w.step s (.drain slot)) := by
  have hhanded : (w.step s (.drain slot)).handed = w.handed := if_neg (Ne.symm hne)
  have hst : (w.step s (.drain slot)).st = (w.st.drain slot).1 := rfl
  rw [drain_states hw.remembers.states] at hst
  obtain ⟨hstates, hlatest, hrange⟩ := catchUp_fields { w.st with registry := (w.st.registry.drain slot).1 } slot
  refine ⟨by rw [hst, hstates], by rw [hst, hlatest], ?_, ?_, rfl, hhanded, rfl⟩
  · rw [hst, hrange]
    unfold SSERegistry.inRange
    rw [SSERegistry.capacity_drain]
  · rw [hst, slots_catchUp_of_ne _ hne]
    show (w.st.registry.drain slot).1.slots s = _
    rw [SSERegistry.slots_drain, beq_false_of_ne hne, Bool.and_false, if_neg Bool.false_ne_true]

/-- **A drain** of the slot hands out what is pending and offers it the newest frame of its url. -/
theorem Watched.Sound.drained {s : Int} {w : Watched} (hw : w.Sound s) :
    (w.step s (.drain s)).Sound s ∧ (w.step s (.drain s)).Stands s ∧
      (w.Stands s → (w.step s (.drain s)).st.registry.isSlotStreaming s = true →
        (w.step s (.drain s)).st.pending s = []) := by
  have hhanded : (w.step s (.drain s)).handed = w.handed ++ (w.st.registry.drain s).2 := if_pos rfl
  have hdispatched : (w.step s (.drain s)).dispatched = w.dispatched := rfl
  have hfound : (w.step s (.drain s)).found = w.found := rfl
  have hst : (w.step s (.drain s)).st = (w.st.drain s).1 := rfl
  rw [drain_states hw.remembers.states] at hst
  generalize w.step s (.drain s) = w' at hhanded hdispatched hfound hst ⊢
  obtain ⟨hstates, hlatest, hrange⟩ := catchUp_fields { w.st with registry := (w.st.registry.drain s).1 } s
  rw [← hst] at hstates hlatest hrange
  have hsame : w'.st.registry.isSlotStreaming s = w.st.registry.isSlotStreaming s := by
    rw [hst, isSlotStreaming_catchUp]
    exact isSlotStreaming_drain w.st.registry s s
  have hdrained := SSERegistry.slots_drain w.st.registry s s
  rw [beq_self_eq_true, Bool.and_true] at hdrained
  have hout := SSERegistry.drained_eq w.st.registry s
  have hnumbered : ∀ {kept}, w.st.newestOf (w.st.registry.slots s).filterUrl = some kept →
      kept.id ≠ NO_EVENT_ID := by
    intro kept hkept
    have hid := hw.numbered kept (hw.remembers.newest hkept).1
    rw [NO_EVENT_ID]
    omega
  have hnewestOf : ∀ url, w'.st.newestOf url = w.st.newestOf url := by
    intro url
    rw [newestOf, hlatest]
    rfl
  -- what it does to a slot that streams
  have hslot : w'.st.registry.isSlotStreaming s = true →
      Served w'.handed w'.found w'.dispatched (w'.st.newestOf (w'.st.registry.slots s).filterUrl)
          (w'.st.registry.slots s) ∧
        DatastarStream.Stands (w'.st.newestOf (w'.st.registry.slots s).filterUrl) (w'.st.registry.slots s) ∧
          (w.Stands s → w'.st.pending s = []) := by
    intro hstreams
    rw [hsame] at hstreams
    have hserved := hw.served hstreams
    have hstands' := SSERegistry.isSlotStreaming_iff.mp hstreams
    rw [hstands'.1, if_pos rfl] at hdrained hout
    have hcatchUp := @slots_catchUp { w.st with registry := (w.st.registry.drain s).1 } s
      ((isSlotStreaming_drain w.st.registry s s).trans hstreams)
      (by
        show ∀ kept, w.st.newestOf ((w.st.registry.drain s).1.slots s).filterUrl = some kept → _
        rw [hdrained]
        exact fun _ hkept => hnumbered hkept)
    rw [← hst] at hcatchUp
    change w'.st.registry.slots s = (w.st.newestOf ((w.st.registry.drain s).1.slots s).filterUrl).elim
      ((w.st.registry.drain s).1.slots s) (fun kept =>
        if ((w.st.registry.drain s).1.slots s).takes kept.id kept.frame then
          ((w.st.registry.drain s).1.slots s).queue kept.id kept.frame
        else (w.st.registry.drain s).1.slots s) at hcatchUp
    rw [hdrained] at hcatchUp
    have hrow := hserved.drained hstands'.2
      (fun kept hkept => ⟨hnumbered hkept, (hw.remembers.newest hkept).1, (hw.remembers.newest hkept).2.1⟩) hcatchUp
    have hfilter : (w'.st.registry.slots s).filterUrl = (w.st.registry.slots s).filterUrl := by
      rw [hcatchUp]
      cases w.st.newestOf (w.st.registry.slots s).filterUrl with
      | none => rfl
      | some kept =>
        dsimp only [Option.elim]
        split
        · rfl
        · rfl
    rw [hhanded, hout, hfound, hdispatched, hnewestOf, hfilter]
    exact ⟨hrow.1, hrow.2.1, fun hstands => hrow.2.2 (hstands hstreams)⟩
  refine ⟨⟨?_, ?_, fun hstreams => (hslot hstreams).1⟩, fun hstreams => (hslot hstreams).2.1,
    fun hstands hstreams => (hslot hstreams).2.2 hstands⟩
  · rw [hdispatched]
    exact hw.numbered
  · rw [hdispatched]
    exact hw.remembers.same hstates hlatest

/-! ## The other steps -/

theorem latest_evictOver (st : DatastarStream) (fuel : Nat) : (st.evictOver fuel).latest = st.latest := by
  induction fuel generalizing st with
  | zero => rfl
  | succ fuel ih =>
    unfold evictOver
    split
    · rfl
    · next gone rest _ =>
      split
      · exact ih ({ st with journal := rest }.noteEvicted gone.url gone.id)
      · rfl

theorem record_states {st : DatastarStream} (hstates : st.sendLatest = true) (url : Bytes) (eventId : Int)
    (frame : Bytes) : (st.record url eventId frame).sendLatest = st.sendLatest ∧
      (st.record url eventId frame).latest = rememberIn url eventId frame st.latest := by
  have hremembered : (if st.sendLatest = true then st.remember url eventId frame else st) =
      st.remember url eventId frame := if_pos hstates
  unfold record
  rw [hremembered]
  dsimp only
  split
  · exact ⟨rfl, rfl⟩
  · exact ⟨(evictOver_fields _ _).2.1, latest_evictOver _ _⟩

/-- A step that neither dispatches a frame nor opens the slot. -/
def LoopStep.quiet (s : Int) : LoopStep → Bool
  | .opened slotId _ _ _ => slotId != s
  | .broadcast _ _ _ => false
  | .deliverPeer _ _ _ => false
  | _ => true

theorem isSlotStreaming_closed (st : DatastarStream) (s : Int) :
    (st.closed s).registry.isSlotStreaming s = false := by
  rw [closed, registry_setGapped, ← Bool.not_eq_true, SSERegistry.isSlotStreaming_iff]
  rintro ⟨hin, hstreams⟩
  have hin : st.registry.inRange s = true := by
    unfold SSERegistry.inRange at hin ⊢
    rw [SSERegistry.capacity_unsubscribe] at hin
    exact hin
  change ((st.registry.unsubscribe s).slots s).isStreaming = true at hstreams
  rw [SSERegistry.slots_unsubscribe, hin, beq_self_eq_true] at hstreams
  cases hstreams

theorem setGapped_states (st : DatastarStream) (slot : Int) (value : Bool) :
    (st.setGapped slot value).sendLatest = st.sendLatest ∧ (st.setGapped slot value).latest = st.latest := by
  unfold setGapped
  split
  · exact ⟨rfl, rfl⟩
  · exact ⟨rfl, rfl⟩

theorem unchanged_closed {s : Int} (w : Watched) {slot : Int} (hne : s ≠ slot) :
    Unchanged s w (w.step s (.closed slot)) := by
  have hst : (w.step s (.closed slot)).st = w.st.closed slot := rfl
  obtain ⟨hstates, hlatest⟩ := setGapped_states { w.st with registry := w.st.registry.unsubscribe slot } slot false
  refine ⟨hstates, hlatest, ?_, ?_, rfl, rfl, rfl⟩
  · rw [hst, closed, registry_setGapped]
    unfold SSERegistry.inRange
    rw [SSERegistry.capacity_unsubscribe]
  · rw [hst, closed, registry_setGapped]
    show (w.st.registry.unsubscribe slot).slots s = _
    rw [SSERegistry.slots_unsubscribe, beq_false_of_ne hne, Bool.and_false, if_neg Bool.false_ne_true]

theorem unchanged_enableBus {s : Int} (w : Watched) (worker counter : Int) :
    Unchanged s w (w.step s (.enableBus worker counter)) := by
  have hst : (w.step s (.enableBus worker counter)).st = (w.st.enableBus worker counter).1 := rfl
  have hfields : (w.st.enableBus worker counter).1.sendLatest = w.st.sendLatest ∧
      (w.st.enableBus worker counter).1.latest = w.st.latest := by
    unfold enableBus
    dsimp only
    split
    · exact ⟨rfl, rfl⟩
    · split
      · exact ⟨rfl, rfl⟩
      · exact ⟨rfl, rfl⟩
  exact ⟨hfields.1, hfields.2, by rw [hst, registry_enableBus], by rw [hst, registry_enableBus], rfl, rfl, rfl⟩

/-- A quiet step that is not about the slot leaves it as it was. -/
theorem unchanged_step {s : Int} {w : Watched} (hw : w.Sound s) {l : LoopStep} (hquiet : l.quiet s = true)
    (hdrain : l ≠ .drain s) (hclosed : l ≠ .closed s) : Unchanged s w (w.step s l) := by
  cases l with
  | opened slotId url lastEventId counter =>
    exact unchanged_opened hw (Ne.symm (bne_iff_ne.mp hquiet)) url lastEventId counter
  | broadcast url build counter => cases hquiet
  | deliverPeer url eventId frame => cases hquiet
  | drain slot => exact unchanged_drain hw fun heq => hdrain (by rw [heq])
  | closed slot => exact unchanged_closed w fun heq => hclosed (by rw [heq])
  | enableBus worker counter => exact unchanged_enableBus w worker counter
  | takeReady => exact ⟨rfl, rfl, rfl, rfl, rfl, rfl, rfl⟩

/-- Every frame dispatched has an id above 0, as the ids that the stream takes do. -/
def Watched.Numbered (w : Watched) : Prop := ∀ e ∈ w.dispatched, 0 < e.id

theorem Watched.Sound.broadcast {s : Int} {w : Watched} (hw : w.Sound s) (url : Bytes)
    (build : Int → Option Bytes) (counter : Int) (hids : (w.step s (.broadcast url build counter)).Numbered) :
    (w.step s (.broadcast url build counter)).Sound s := by
  have htaken : (w.st.nextId counter).1.sendLatest = w.st.sendLatest ∧
      (w.st.nextId counter).1.latest = w.st.latest := by
    unfold nextId
    split
    · exact ⟨rfl, rfl⟩
    · exact ⟨rfl, rfl⟩
  have hst : (w.step s (.broadcast url build counter)).st = (w.st.broadcast url build counter).1 := rfl
  have hdispatched : (w.step s (.broadcast url build counter)).dispatched =
      w.dispatched ++ w.st.recordedBy (.broadcast url build counter) := rfl
  have hhanded : (w.step s (.broadcast url build counter)).handed = w.handed := rfl
  have hfound : (w.step s (.broadcast url build counter)).found = w.found := rfl
  generalize w.step s (.broadcast url build counter) = w' at hids hst hdispatched hhanded hfound ⊢
  unfold recordedBy at hdispatched
  unfold DatastarStream.broadcast at hst
  dsimp only at hdispatched hst
  cases hbuilt : build (w.st.nextId counter).2.1 with
  | none =>
    -- an id is taken, and nothing sent
    rw [hbuilt] at hst hdispatched
    have hdispatched : w'.dispatched = w.dispatched := hdispatched.trans (List.append_nil _)
    exact hw.same ⟨by rw [hst, htaken.1], by rw [hst, htaken.2], by rw [hst, registry_nextId],
      by rw [hst, registry_nextId], hdispatched, hhanded, hfound⟩
  | some frame =>
    rw [hbuilt] at hst hdispatched
    have hid : 0 < (w.st.nextId counter).2.1 :=
      hids ⟨url, _, frame⟩ (by rw [hdispatched]; exact List.mem_append_right _ (List.mem_singleton_self _))
    obtain ⟨hstates, hlatest⟩ := record_states (htaken.1.trans hw.remembers.states) url
      (w.st.nextId counter).2.1 frame
    refine hw.dispatch hid ?_ ?_ ?_ hdispatched hhanded hfound
    · rw [hst]
      exact hstates.trans htaken.1
    · rw [hst]
      exact hlatest.trans (by rw [htaken.2])
    · rw [hst]
      show (((w.st.nextId counter).1.record url (w.st.nextId counter).2.1 frame).registry.notifyFrame url
        (w.st.nextId counter).2.1 frame).1 = _
      rw [registry_record, registry_nextId]

theorem Watched.Sound.deliverPeer {s : Int} {w : Watched} (hw : w.Sound s) (url : Bytes) (eventId : Int)
    (frame : Bytes) (hids : (w.step s (.deliverPeer url eventId frame)).Numbered) :
    (w.step s (.deliverPeer url eventId frame)).Sound s := by
  have hid : 0 < eventId :=
    hids ⟨url, eventId, frame⟩ (List.mem_append_right _ (List.mem_singleton_self _))
  obtain ⟨hstates, hlatest⟩ := record_states hw.remembers.states url eventId frame
  have hfields : (w.st.deliverPeer url eventId frame).sendLatest = w.st.sendLatest ∧
      (w.st.deliverPeer url eventId frame).latest = rememberIn url eventId frame w.st.latest := by
    unfold DatastarStream.deliverPeer notify
    dsimp only
    split
    · exact ⟨hstates, hlatest⟩
    · exact ⟨hstates, hlatest⟩
  exact @Watched.Sound.dispatch s w _ hw ⟨url, eventId, frame⟩ hid hfields.1 hfields.2
    (registry_deliverPeer w.st url eventId frame) rfl rfl rfl

/-- **Every step** keeps the newest frame of each url, and the slot where it says it stands. -/
theorem Watched.Sound.step {s : Int} {w : Watched} (hw : w.Sound s) (l : LoopStep)
    (hids : (w.step s l).Numbered) : (w.step s l).Sound s := by
  cases hquiet : l.quiet s with
  | true =>
    rcases Classical.em (l = .drain s) with rfl | hdrain
    · exact hw.drained.1
    · rcases Classical.em (l = .closed s) with rfl | hclosed
      · obtain ⟨hstates, hlatest⟩ := setGapped_states { w.st with registry := w.st.registry.unsubscribe s } s false
        exact hw.idle hstates hlatest (isSlotStreaming_closed w.st s) rfl
      · exact hw.same (unchanged_step hw hquiet hdrain hclosed)
  | false =>
    cases l with
    | opened slotId url lastEventId counter =>
      have heq : slotId = s := by
        rw [LoopStep.quiet, bne_eq_false_iff_eq] at hquiet
        exact hquiet
      rw [heq]
      exact hw.opened url lastEventId counter
    | broadcast url build counter => exact hw.broadcast url build counter hids
    | deliverPeer url eventId frame => exact hw.deliverPeer url eventId frame hids
    | drain slot => cases hquiet
    | closed slot => cases hquiet
    | enableBus worker counter => cases hquiet
    | takeReady => cases hquiet

/-- A quiet step leaves the slot at the newest frame. -/
theorem Watched.Stands.step {s : Int} {w : Watched} (hw : w.Sound s) (hstands : w.Stands s) {l : LoopStep}
    (hquiet : l.quiet s = true) : (w.step s l).Stands s := by
  rcases Classical.em (l = .drain s) with rfl | hdrain
  · exact hw.drained.2.1
  · rcases Classical.em (l = .closed s) with rfl | hclosed
    · intro hstreams
      have hidle : (w.step s (.closed s)).st.registry.isSlotStreaming s = false := isSlotStreaming_closed w.st s
      rw [hidle] at hstreams
      cases hstreams
    · have hsame := unchanged_step hw hquiet hdrain hclosed
      intro hstreams
      rw [SSERegistry.isSlotStreaming_iff, hsame.range, hsame.row, ← SSERegistry.isSlotStreaming_iff] at hstreams
      rw [newestOf, hsame.latest, hsame.row]
      exact hstands hstreams

/-! ## Who is named -/

end DatastarStream

namespace SSERegistry

/-- What calls on a registry keep that do not take its names: and a slot that had nothing pending and has, is
named. -/
theorem run_names {r : SSERegistry} (hr : r.Sound) {ls : List Step} (hno : .call .takeReady ∉ ls) (s : Int) :
    (ls.foldl step r).Sound ∧ (s ∈ r.ready → s ∈ (ls.foldl step r).ready) ∧
      (r.pending s = [] → (ls.foldl step r).pending s ≠ [] → s ∈ (ls.foldl step r).ready) := by
  induction ls generalizing r with
  | nil => exact ⟨hr, id, fun hempty hmore => absurd hempty hmore⟩
  | cons l ls ih =>
    rw [List.mem_cons, not_or] at hno
    obtain ⟨hsound, hkeeps, hnames⟩ := ih (hr.step l) hno.2
    refine ⟨hsound, fun hmem => hkeeps (mem_step_of_mem (Ne.symm hno.1) hmem), fun hempty hmore => ?_⟩
    rcases Decidable.em ((r.step l).pending s = []) with hstill | hgained
    · exact hnames hstill hmore
    · apply hkeeps
      apply Step.names hr
      left
      change (r.pending s).length < ((r.step l).pending s).length
      rw [hempty]
      exact List.length_pos_of_ne_nil hgained

/-- A slot past the registry's end is none of its calls' affair. -/
theorem slots_step_outside {r : SSERegistry} {s : Int} (hout : r.inRange s = false) (l : Step) :
    (r.step l).slots s = r.slots s := by
  have hother : ∀ slot, (r.inRange slot && s == slot) = false := by
    intro slot
    rcases Decidable.em (s = slot) with rfl | hne
    · rw [hout, Bool.false_and]
    · rw [beq_false_of_ne hne, Bool.and_false]
  cases l with
  | markReady slot => rw [step, slots_markReady]
  | call c =>
    cases c with
    | subscribe slot url lastEventId =>
      show (r.subscribe slot url lastEventId).slots s = _
      rw [slots_subscribe, hother, if_neg Bool.false_ne_true]
    | unsubscribe slot =>
      show (r.unsubscribe slot).slots s = _
      rw [slots_unsubscribe, hother, if_neg Bool.false_ne_true]
    | notifyFrame url eventId frame =>
      show (r.notifyFrame url eventId frame).1.slots s = _
      rw [slots_notifyFrame, hout, Bool.false_and, if_neg Bool.false_ne_true]
    | queueFrame slot eventId frame =>
      show (r.queueFrame slot eventId frame).1.slots s = _
      rw [slots_queueFrame, Bool.and_right_comm, hother, Bool.false_and, if_neg Bool.false_ne_true]
    | drain slot =>
      show (r.drain slot).1.slots s = _
      rw [slots_drain, hother, if_neg Bool.false_ne_true]
    | takeReady => rfl

theorem capacity_step (r : SSERegistry) (l : Step) : (r.step l).capacity = r.capacity := by
  cases l with
  | markReady slot => exact capacity_markReady r slot
  | call c =>
    cases c with
    | subscribe slot url lastEventId => exact capacity_subscribe r slot url lastEventId
    | unsubscribe slot => exact capacity_unsubscribe r slot
    | notifyFrame url eventId frame => exact capacity_notifyFrame r url eventId frame
    | queueFrame slot eventId frame =>
      show (r.queueFrame slot eventId frame).1.capacity = _
      rw [queueFrame_eq]
      split
      · exact capacity_enqueue r slot eventId frame
      · rfl
    | drain slot => exact capacity_drain r slot
    | takeReady => rfl

/-- What holds of every registry: its rows end with its slots. -/
structure Kept (s : Int) (r : SSERegistry) : Prop where
  sound : r.Sound
  outside : r.inRange s = false → r.pending s = []

theorem Kept.step {s : Int} {r : SSERegistry} (hr : r.Kept s) (l : Step) : (r.step l).Kept s := by
  refine ⟨hr.sound.step l, fun hout => ?_⟩
  have hbefore : r.inRange s = false := by
    unfold inRange at hout ⊢
    rwa [capacity_step] at hout
  rw [pending, slots_step_outside hbefore l]
  exact hr.outside hbefore

end SSERegistry

namespace DatastarStream

/-- A step is calls on the registry, of which none but the loop's own takes its names. -/
def LoopStep.calls (st : DatastarStream) : LoopStep → List SSERegistry.Step
  | .opened slotId url _ _ =>
    if slotId < 0 then []
    else .call (.subscribe slotId url 0) ::
      (st.newestOf url).toList.map fun kept : Recorded => .call (.queueFrame slotId kept.id kept.frame)
  | .broadcast url build counter =>
    (st.recordedBy (.broadcast url build counter)).map fun e => .call (.notifyFrame e.url e.id e.frame)
  | .deliverPeer url eventId frame => [.call (.notifyFrame url eventId frame)]
  | .drain slot =>
    .call (.drain slot) :: ({ st with registry := (st.registry.drain slot).1 }.behind slot).toList.map fun kept : Recorded =>
      .call (.queueFrame slot kept.id kept.frame)
  | .closed slot => [.call (.unsubscribe slot)]
  | .enableBus _ _ => []
  | .takeReady => [.call .takeReady]

theorem registry_catchUp (st : DatastarStream) (slot : Int) :
    (st.catchUp slot).registry = ((st.behind slot).toList.map fun kept : Recorded =>
      SSERegistry.Step.call (.queueFrame slot kept.id kept.frame)).foldl SSERegistry.step st.registry := by
  unfold catchUp
  cases st.behind slot with
  | none => rfl
  | some kept => rfl

theorem registry_step {s : Int} {w : Watched} (hstates : w.st.sendLatest = true) (l : LoopStep) :
    (w.step s l).st.registry = (l.calls w.st).foldl SSERegistry.step w.st.registry := by
  cases l with
  | opened slotId url lastEventId counter =>
    show (w.st.open slotId url lastEventId counter).1.registry = _
    rw [LoopStep.calls]
    split
    · next hneg =>
      unfold DatastarStream.open
      rw [if_pos hneg]
      rfl
    · next hslot =>
      rw [open_states hstates hslot]
      dsimp only
      cases w.st.newestOf url with
      | none => rfl
      | some kept => rfl
  | broadcast url build counter =>
    show (w.st.broadcast url build counter).1.registry = _
    rw [LoopStep.calls, recordedBy]
    unfold DatastarStream.broadcast
    dsimp only
    cases build (w.st.nextId counter).2.1 with
    | none => exact registry_nextId w.st counter
    | some frame =>
      show (((w.st.nextId counter).1.record url (w.st.nextId counter).2.1 frame).registry.notifyFrame url
        (w.st.nextId counter).2.1 frame).1 = _
      rw [registry_record, registry_nextId]
      rfl
  | deliverPeer url eventId frame => exact registry_deliverPeer w.st url eventId frame
  | drain slot =>
    show (w.st.drain slot).1.registry = _
    rw [drain_states hstates, registry_catchUp]
    rfl
  | closed slot => exact registry_setGapped _ slot false
  | enableBus worker counter => exact registry_enableBus w.st worker counter
  | takeReady => rfl

theorem takes_names_alone (st : DatastarStream) {l : LoopStep} (hl : l ≠ .takeReady) :
    .call .takeReady ∉ l.calls st := by
  intro hmem
  cases l with
  | opened slotId url lastEventId counter =>
    rw [LoopStep.calls] at hmem
    split at hmem
    · cases hmem
    · simp at hmem
  | broadcast url build counter => simp [LoopStep.calls] at hmem
  | deliverPeer url eventId frame => simp [LoopStep.calls] at hmem
  | drain slot => simp [LoopStep.calls] at hmem
  | closed slot => simp [LoopStep.calls] at hmem
  | enableBus worker counter => cases hmem
  | takeReady => exact hl rfl

/-- `is_streaming`. -/
def isStreaming (st : DatastarStream) (slot : Int) : Bool := st.registry.isSlotStreaming slot

/-! ## Runs -/

section

variable {capacity : Nat} {journalEntries : Int} {s : Int} {x : (statesSystem capacity journalEntries s).Execution}
  {k : ℕ}

theorem step_of_label {l : LoopStep} (hl : x.labels[k]? = some l) : x.state (k + 1) = (x.state k).step s l :=
  (Option.some.inj (x.steps hl)).symm

theorem dispatched_step (w : Watched) (l : LoopStep) : ∃ more, (w.step s l).dispatched = w.dispatched ++ more := by
  cases l with
  | broadcast url build counter => exact ⟨_, rfl⟩
  | deliverPeer url eventId frame => exact ⟨_, rfl⟩
  | _ => exact ⟨[], (List.append_nil _).symm⟩

theorem numbered_before {w : Watched} {l : LoopStep} (hids : (w.step s l).Numbered) : w.Numbered := by
  obtain ⟨more, hmore⟩ := dispatched_step (s := s) w l
  intro e he
  exact hids e (by rw [hmore]; exact List.mem_append_left _ he)

theorem numbered_earlier {i : ℕ} (hik : i ≤ k) (hk : k ≤ x.labels.length) (hids : (x.state k).Numbered) :
    (x.state i).Numbered := by
  by_contra hnot
  refine x.stays (P := fun w => ¬ w.Numbered) hik hk hnot (fun j l _ _ hl hbefore hafter => ?_) hids
  rw [step_of_label hl] at hafter
  exact hbefore (numbered_before hafter)

/-- What holds in every state of a run. -/
theorem sound_run (x : (statesSystem capacity journalEntries s).Execution) :
    ∀ k ≤ x.labels.length, (x.state k).Numbered → (x.state k).Sound s ∧ (x.state k).st.registry.Kept s := by
  refine x.invariant (I := fun w => w.Numbered → w.Sound s ∧ w.st.registry.Kept s) (fun _ => ⟨?_, ?_⟩)
    fun w l w' hw hnext hids => ?_
  · refine ⟨fun _ he => (nomatch he), ⟨rfl, fun hkept => (nomatch hkept), fun _ _ he => (nomatch he)⟩,
      fun hstreams => ?_⟩
    have hidle := (SSERegistry.isSlotStreaming_iff.mp hstreams).2
    cases hidle
  · exact ⟨SSERegistry.sound_new capacity, fun _ => rfl⟩
  · obtain rfl := Option.some.inj hnext
    obtain ⟨hsound, hregistry⟩ := hw (numbered_before hids)
    refine ⟨hsound.step l hids, ?_⟩
    show (w.step s l).st.registry.Kept s
    rw [registry_step hsound.remembers.states]
    generalize l.calls w.st = ls
    induction ls using List.reverseRecOn with
    | nil => exact hregistry
    | append_singleton ls last ih =>
      rw [List.foldl_append]
      exact ih.step last

/-! ## What the claim comes to -/

/-- A frame of `url` that no other of those dispatched has a greater id than. -/
def Watched.Greatest (w : Watched) (url : Bytes) (e : Recorded) : Prop :=
  e ∈ w.dispatched ∧ e.url = url ∧ ∀ e' ∈ w.dispatched, e'.url = url → e'.id ≤ e.id

/-- The slot was handed frames of `url` since its open, behind what that found in its outbox, and this last. -/
def Watched.HandedLast (w : Watched) (url : Bytes) (e : Recorded) : Prop :=
  ∃ frames : List Recorded, w.handed = w.found ++ ((frames ++ [e]).map Recorded.frame).flatten ∧
    ∀ e' ∈ frames, e' ∈ w.dispatched ∧ e'.url = url

/-- The greatest frames of `url` fit an empty outbox. -/
def Watched.Fits (w : Watched) (url : Bytes) : Prop :=
  ∀ e, w.Greatest url e → e.frame.length ≤ MAX_PENDING_BYTES

/-- The step before was a drain of the slot, and one before that too, with nothing dispatched and the slot not
opened from the one to the other. -/
def DrainedTwice (x : (statesSystem capacity journalEntries s).Execution) (k : ℕ) : Prop :=
  ∃ i j, i < j ∧ k = j + 1 ∧ x.labels[i]? = some (.drain s) ∧ x.labels[j]? = some (.drain s) ∧
    ∀ m l, i < m → m < j → x.labels[m]? = some l → l.quiet s = true

/-- The loop took the slot's name, and has not drained the slot since. -/
def Taken (x : (statesSystem capacity journalEntries s).Execution) (k : ℕ) : Prop :=
  ∃ j, j < k ∧ x.labels[j]? = some .takeReady ∧ s ∈ (x.state j).st.registry.ready ∧
    ∀ m, j < m → m < k → x.labels[m]? ≠ some (.drain s)

/-- One state of a run, seen from the slot. -/
structure EndsNewest (x : (statesSystem capacity journalEntries s).Execution) (k : ℕ) : Prop where
  last : DrainedTwice x k → (x.state k).st.isStreaming s = true → ∀ url,
    ((x.state k).st.registry.slots s).filterUrl = url → (x.state k).Fits url →
      (∃ e ∈ (x.state k).dispatched, e.url = url) →
        ∃ e, (x.state k).Greatest url e ∧ (x.state k).HandedLast url e
  /-- With nothing pending it is not behind. -/
  caught : (x.state k).st.isStreaming s = true → (x.state k).st.pending s = [] → ∀ url,
    ((x.state k).st.registry.slots s).filterUrl = url → (x.state k).Fits url → ∀ e, (x.state k).Greatest url e →
      e.id ≤ ((x.state k).st.registry.slots s).lastEventId
  /-- With something pending it is named until it is drained. -/
  named : (x.state k).st.pending s ≠ [] → s ∈ (x.state k).st.registry.ready ∨ Taken x k

/-- In every state of a run whose frames are numbered. -/
def KeepsNewest (x : (statesSystem capacity journalEntries s).Execution) : Prop :=
  ∀ k ≤ x.labels.length, (x.state k).Numbered → EndsNewest x k

/-! ## Every state of a run -/

/-- A slot that stands at the newest frame has seen every greatest one, if they fit. -/
theorem seen_of_stands {w : Watched} (hw : w.Sound s) {url : Bytes} {row : Subscription}
    (hstands : Stands (w.st.newestOf url) row) (hfits : w.Fits url) {e : Recorded} (he : e ∈ w.dispatched)
    (hurl : e.url = url) : ∃ kept, w.Greatest url kept ∧ kept.id ≤ row.lastEventId := by
  cases hnewest : w.st.newestOf url with
  | none => exact absurd hurl (hw.remembers.nothing hnewest e he)
  | some kept =>
    have hgreatest : w.Greatest url kept := hw.remembers.newest hnewest
    refine ⟨kept, hgreatest, (hstands kept hnewest).resolve_right fun hlong => ?_⟩
    exact Nat.not_lt.mpr (hfits kept hgreatest) hlong

/-- A slot with nothing pending that has seen a greatest frame was handed one last. -/
theorem handed_last {w : Watched} (hw : w.Sound s) (hstreams : w.st.registry.isSlotStreaming s = true)
    (hempty : w.st.pending s = []) {kept : Recorded} {url : Bytes} (hgreatest : w.Greatest url kept)
    (hurl : (w.st.registry.slots s).filterUrl = url) (hseen : kept.id ≤ (w.st.registry.slots s).lastEventId) :
    ∃ e, w.Greatest url e ∧ w.HandedLast url e := by
  obtain ⟨frames, hbytes, hown, hlast⟩ := (hw.served hstreams).line
  have hpos := hw.numbered kept hgreatest.1
  rw [hurl] at hown
  change w.handed ++ w.st.pending s = _ at hbytes
  rw [hempty, List.append_nil] at hbytes
  rcases List.eq_nil_or_concat frames with rfl | ⟨earlier, e, rfl⟩
  · -- it would stand at 0
    change (0 : Int) = _ at hlast
    omega
  · rw [List.concat_eq_append] at hown hlast hbytes
    rw [List.getLast?_append, List.getLast?_singleton] at hlast
    change e.id = _ at hlast
    have he := hown e (List.mem_append_right _ (List.mem_singleton_self e))
    refine ⟨e, ⟨he.1, he.2, fun e' he' hurl' => ?_⟩, earlier, hbytes, fun e' he' => ?_⟩
    · have hle := hgreatest.2.2 e' he' hurl'
      omega
    · exact hown e' (List.mem_append_left _ he')

/-- Behind two drains with nothing dispatched in between the slot has nothing pending, and has seen the newest
frame of its url. -/
theorem drained_twice (hk : k ≤ x.labels.length) (hids : (x.state k).Numbered) (htwice : DrainedTwice x k)
    (hstreams : (x.state k).st.registry.isSlotStreaming s = true) :
    (x.state k).Stands s ∧ (x.state k).st.pending s = [] := by
  obtain ⟨i, j, hij, rfl, hi, hj, hquiet⟩ := htwice
  have hsound := fun {m} (hm : m ≤ j + 1) =>
    (sound_run x m (hm.trans hk) (numbered_earlier hm hk hids)).1
  have hstands : (x.state j).Stands s := by
    refine x.stays (P := fun w => w.Stands s) (Nat.succ_le_of_lt hij) (by omega) ?_ fun m l him hmj hl hbefore => ?_
    · rw [step_of_label hi]
      exact (hsound (show i ≤ j + 1 by omega)).drained.2.1
    · rw [step_of_label hl]
      exact hbefore.step (hsound (by omega)) (hquiet m l him hmj hl)
  have hdrained := (hsound (Nat.le_succ j)).drained
  rw [step_of_label hj] at hstreams ⊢
  exact ⟨hdrained.2.1, hdrained.2.2 hstands hstreams⟩

/-- A slot with something pending is named, or the loop has its name. -/
theorem named_run (x : (statesSystem capacity journalEntries s).Execution) :
    ∀ k ≤ x.labels.length, (x.state k).Numbered → (x.state k).st.pending s ≠ [] →
      s ∈ (x.state k).st.registry.ready ∨ Taken x k := by
  intro k hk hids hpending
  induction k with
  | zero =>
    rw [x.start] at hpending
    exact absurd rfl hpending
  | succ k ih =>
    obtain ⟨l, hl⟩ := x.exists_label (show k < x.labels.length by omega)
    have hstep := step_of_label hl
    rw [hstep] at hids hpending ⊢
    have hids' := numbered_before hids
    obtain ⟨hsound, hregistry⟩ := sound_run x k (by omega) hids'
    have hcalls := registry_step (s := s) hsound.remembers.states l
    rcases Classical.em (l = .takeReady) with rfl | hloop
    · -- the names are taken: the slot's was there, or had been taken before
      right
      rcases ih (by omega) hids' hpending with hnamed | ⟨j, hjk, hj, hmem, hnone⟩
      · exact ⟨k, Nat.lt_succ_self k, hl, hnamed, fun m hkm hmk => by omega⟩
      · refine ⟨j, by omega, hj, hmem, fun m hjm hmk => ?_⟩
        rcases Nat.lt_succ_iff_lt_or_eq.mp hmk with hlt | rfl
        · exact hnone m hjm hlt
        · rw [hl]
          exact fun heq => (nomatch Option.some.inj heq)
    · have hno := takes_names_alone (x.state k).st hloop
      obtain ⟨-, hkeeps, hnames⟩ := SSERegistry.run_names hregistry.sound hno s
      rw [← hcalls] at hkeeps hnames
      rcases Classical.em (l = .drain s) with rfl | hdrain
      · -- what is pending behind a drain was queued by the catch-up
        left
        rw [LoopStep.calls, List.foldl_cons] at hcalls
        rw [LoopStep.calls, List.mem_cons, not_or] at hno
        have hcaught := SSERegistry.run_names (hregistry.sound.step (.call (.drain s))) hno.2 s
        rw [← hcalls] at hcaught
        apply hcaught.2.2
        · show (((x.state k).st.registry.drain s).1.slots s).pendingBuf = []
          rw [SSERegistry.slots_drain]
          split
          · rfl
          · next hout =>
            rw [beq_self_eq_true, Bool.and_true, Bool.not_eq_true] at hout
            exact hregistry.outside hout
        · exact hpending
      · rcases Decidable.em ((x.state k).st.pending s = []) with hempty | hbefore
        · exact Or.inl (hnames hempty hpending)
        · rcases ih (by omega) hids' hbefore with hnamed | ⟨j, hjk, hj, hmem, hnone⟩
          · exact Or.inl (hkeeps hnamed)
          · right
            refine ⟨j, by omega, hj, hmem, fun m hjm hmk => ?_⟩
            rcases Nat.lt_succ_iff_lt_or_eq.mp hmk with hlt | rfl
            · exact hnone m hjm hlt
            · rw [hl]
              exact fun heq => hdrain (Option.some.inj heq)

/-- **A stream of states ends at the newest state**, in every run whose frames are numbered. -/
theorem ends_at_newest (capacity : Nat) (journalEntries s : Int)
    (x : (statesSystem capacity journalEntries s).Execution) : KeepsNewest x := by
  intro k hk hids
  have hw := (sound_run x k hk hids).1
  refine ⟨fun htwice hstreams url hurl hfits hsome => ?_, fun hstreams hempty url hurl hfits e he => ?_,
    named_run x k hk hids⟩
  · obtain ⟨hstands, hempty⟩ := drained_twice hk hids htwice hstreams
    obtain ⟨e, he, heurl⟩ := hsome
    have hstands := hstands hstreams
    rw [hurl] at hstands
    obtain ⟨kept, hgreatest, hseen⟩ := seen_of_stands hw hstands hfits he heurl
    exact handed_last hw hstreams hempty hgreatest hurl hseen
  · have hstands := (hw.served hstreams).stands hempty
    rw [hurl] at hstands
    obtain ⟨kept, hgreatest, hseen⟩ := seen_of_stands hw hstands hfits he.1 he.2.1
    exact (hgreatest.2.2 e he.1 he.2.1).trans hseen

end

/-! ## A newest frame that no outbox has room for -/

theorem takes_long {sub : Subscription} {eventId : Int} {frame : Bytes}
    (hlong : MAX_PENDING_BYTES < frame.length) : sub.takes eventId frame = false := by
  have hfull : sub.hasRoom frame = false := decide_eq_false (by omega)
  rw [Subscription.takes, hfull, Bool.and_false]

theorem notifyFrame_long (r : SSERegistry) (url : Bytes) (eventId : Int) {frame : Bytes}
    (hlong : MAX_PENDING_BYTES < frame.length) : (r.notifyFrame url eventId frame).1 = r := by
  apply SSERegistry.notifyFrame_induction (P := (· = r)) rfl
  intro r' slot _ _ htakes _
  rw [takes_long hlong] at htakes
  cases htakes

/-- A drain with only such frames to catch up with. -/
theorem registry_drain_long {st : DatastarStream} (hlong : ∀ kept ∈ st.latest, MAX_PENDING_BYTES < kept.frame.length)
    (s : Int) : (st.drain s).1.registry = (st.registry.drain s).1 := by
  unfold drain
  dsimp only
  split
  · unfold catchUp
    split
    · rfl
    · next kept hbehind =>
      have hkept : kept ∈ st.latest := by
        unfold behind at hbehind
        split at hbehind
        · cases hbehind
        · split at hbehind
          · cases hbehind
          · next found hfound =>
            split at hbehind
            · rw [← Option.some.inj hbehind]
              exact List.mem_of_find?_eq_some hfound
            · cases hbehind
      show ((st.registry.drain s).1.queueFrame s kept.id kept.frame).1 = _
      rw [SSERegistry.queueFrame_eq, takes_long (hlong kept hkept), Bool.and_false, if_neg Bool.false_ne_true]
  · rfl

theorem latest_drain (st : DatastarStream) (s : Int) : (st.drain s).1.latest = st.latest := by
  unfold drain
  dsimp only
  split
  · exact (catchUp_fields _ s).2.1
  · rfl

theorem drained_long {s : Int} {w : Watched} (hlong : ∀ kept ∈ w.st.latest, MAX_PENDING_BYTES < kept.frame.length) :
    (w.step s (.drain s)).st.registry = (w.st.registry.drain s).1 ∧
      (w.step s (.drain s)).handed = w.handed ++ (w.st.registry.drain s).2 ∧
        (w.step s (.drain s)).st.latest = w.st.latest :=
  ⟨registry_drain_long hlong s, if_pos rfl, latest_drain w.st s⟩

/-- A frame past the largest outbox, behind a small one: the slot was handed the small one last, and stands
behind the other with nothing pending, not named. -/
theorem not_always_newest :
    (¬ ∀ (capacity : Nat) (journalEntries s : Int) (x : (statesSystem capacity journalEntries s).Execution),
      ∀ k ≤ x.labels.length, DrainedTwice x k → (x.state k).st.isStreaming s = true → ∀ url,
        ((x.state k).st.registry.slots s).filterUrl = url →
        (∃ e ∈ (x.state k).dispatched, e.url = url ∧ e.frame.length ≤ MAX_PENDING_BYTES) →
          ∃ e, (x.state k).Greatest url e ∧ (x.state k).HandedLast url e) ∧
    ¬ ∀ (capacity : Nat) (journalEntries s : Int) (x : (statesSystem capacity journalEntries s).Execution),
      ∀ k ≤ x.labels.length, (x.state k).st.isStreaming s = true → (x.state k).st.pending s = [] → ∀ url,
        ((x.state k).st.registry.slots s).filterUrl = url → ∀ e, (x.state k).Greatest url e →
          ((x.state k).st.registry.slots s).lastEventId < e.id →
            s ∈ (x.state k).st.registry.ready ∨ Taken x k := by
  obtain ⟨big, hbig⟩ : ∃ big : Bytes, MAX_PENDING_BYTES < big.length := by
    refine ⟨List.replicate (MAX_PENDING_BYTES + 1) 0, ?_⟩
    rw [List.length_replicate]
    exact Nat.lt_succ_self _
  let x := LabelledSystem.Execution.ofRun (statesSystem 1 0 0)
    [.opened 0 [] none 0, .deliverPeer [] 1 [120], .takeReady, .deliverPeer [] 2 big, .drain 0, .drain 0] rfl
  have hsame : (x.state 4).st.registry = (x.state 3).st.registry := notifyFrame_long _ [] 2 hbig
  have hlatest : (x.state 4).st.latest = [⟨[], 2, big⟩] := rfl
  have hlong : ∀ kept ∈ (x.state 4).st.latest, MAX_PENDING_BYTES < kept.frame.length := by
    intro kept hkept
    rw [hlatest] at hkept
    rw [List.mem_singleton.mp hkept]
    exact hbig
  -- the drains hand out the small frame, and then nothing
  have hfirst := drained_long (s := 0) hlong
  rw [← step_of_label (x := x) (k := 4) rfl, hsame] at hfirst
  rw [← hfirst.2.2] at hlong
  have hsecond := drained_long (s := 0) hlong
  rw [← step_of_label (x := x) (k := 5) rfl, hfirst.1, hfirst.2.1] at hsecond
  obtain ⟨hsecond, hhanded, -⟩ := hsecond
  have hhanded : (x.state 6).handed = [120] := hhanded
  have hstreams : (x.state 6).st.isStreaming 0 = true := by
    rw [isStreaming, hsecond]
    rfl
  have hurl : ((x.state 6).st.registry.slots 0).filterUrl = [] := by
    rw [hsecond]
    rfl
  have hdispatched : (x.state 6).dispatched = [⟨[], 1, [120]⟩, ⟨[], 2, big⟩] := rfl
  have hlast : ((x.state 6).st.registry.slots 0).lastEventId = 1 := by
    rw [hsecond]
    rfl
  have hready : (x.state 6).st.registry.ready = [] := by
    rw [hsecond]
    rfl
  have hempty : (x.state 6).st.pending 0 = [] := by
    rw [pending, hsecond]
    rfl
  have hbig' : (⟨[], 2, big⟩ : Recorded) ∈ (x.state 6).dispatched := by
    rw [hdispatched]
    exact List.mem_cons_of_mem _ List.mem_cons_self
  have hlength : 6 ≤ x.labels.length := Nat.le_refl 6
  have hdrains : x.labels[4]? = some (.drain 0) ∧ x.labels[5]? = some (.drain 0) := ⟨rfl, rfl⟩
  clear_value x
  constructor
  · intro hall
    have htwice : DrainedTwice x 6 := ⟨4, 5, by decide, rfl, hdrains.1, hdrains.2, fun m l hlt hlt' => by omega⟩
    have hsmall : (⟨[], 1, [120]⟩ : Recorded) ∈ (x.state 6).dispatched := by
      rw [hdispatched]
      exact List.mem_cons_self
    obtain ⟨e, ⟨hmem, -, hmax⟩, frames, hbytes, -⟩ := hall 1 0 0 x 6 hlength htwice hstreams [] hurl
      ⟨_, hsmall, rfl, by decide⟩
    have hid : 2 ≤ e.id := hmax _ hbig' rfl
    rw [hdispatched] at hmem
    rcases List.mem_cons.mp hmem with rfl | hmem
    · exact absurd hid (by decide)
    · rw [List.mem_singleton.mp hmem, hhanded] at hbytes
      have hbytes := congrArg List.length hbytes
      rw [List.map_append, List.flatten_append, List.length_append, List.length_append] at hbytes
      have hone : ([(⟨[], 2, big⟩ : Recorded)].map Recorded.frame).flatten = big := List.append_nil big
      rw [hone, List.length_singleton] at hbytes
      unfold MAX_PENDING_BYTES at hbig
      omega
  · intro hall
    have hgreatest : (x.state 6).Greatest [] ⟨[], 2, big⟩ := by
      refine ⟨hbig', rfl, fun e he _ => ?_⟩
      show e.id ≤ 2
      rw [hdispatched] at he
      rcases List.mem_cons.mp he with rfl | he
      · exact show (1 : Int) ≤ 2 by decide
      · rw [List.mem_singleton.mp he]
    have hbehind : ((x.state 6).st.registry.slots 0).lastEventId < 2 := by
      rw [hlast]
      decide
    rcases hall 1 0 0 x 6 hlength hstreams hempty [] hurl _ hgreatest hbehind with hnamed | htaken
    · rw [hready] at hnamed
      cases hnamed
    · -- it was named once, and drained twice since
      obtain ⟨j, hj, hlabel, -, hnone⟩ := htaken
      have hne : j ≠ 5 := by
        rintro rfl
        rw [hdrains.2] at hlabel
        cases hlabel
      exact hnone 5 (by omega) (by omega) hdrains.2

end DatastarStream

end MojoHttp
