import MojoHttp.Sse.Journal

/-!
# A reconnect is caught up with all it missed, or with nothing (`stream.mojo`)

What a stream of changes has recorded over a run of its calls, what its journal keeps of that, and what
an open with a `Last-Event-ID` is sent of it.

* **`DatastarStream.Chronicled.call`** — every call keeps each frame recorded in the journal, or below the
  mark of its url's dropped frames.
* **`DatastarStream.all_or_nothing`** — a reconnect is sent what it missed, in order, or is told of a gap.
-/

namespace MojoHttp

/-- A replay that sends every entry sends them in the order of their ids: each is past the one before. -/
theorem ascending_replayFrom {slot : Int} {entries : List Recorded} {r : SSERegistry}
    (hnumbered : ∀ e ∈ entries, e.id ≠ NO_EVENT_ID) (hall : (replayFrom r slot entries).2 = true) :
    SortedById entries ∧ ∀ e ∈ entries, (r.slots slot).lastEventId < e.id := by
  induction entries generalizing r with
  | nil => exact ⟨List.Pairwise.nil, fun _ he => (nomatch he)⟩
  | cons entry entries ih =>
    have hid := hnumbered entry List.mem_cons_self
    rw [replayFrom] at hall
    cases hqueued : (r.queueFrame slot entry.id entry.frame).2 with
    | false => simp [hqueued] at hall
    | true =>
      rw [hqueued, if_pos rfl] at hall
      obtain ⟨hsorted, hpast⟩ := ih (fun e he => hnumbered e (List.mem_cons_of_mem _ he)) hall
      rw [SSERegistry.queued_queueFrame] at hqueued
      have hlast : ((r.queueFrame slot entry.id entry.frame).1.slots slot).lastEventId = entry.id := by
        rw [SSERegistry.slots_queueFrame, hqueued, beq_self_eq_true]
        show (if entry.id != NO_EVENT_ID then entry.id else _) = entry.id
        exact if_pos (bne_iff_ne.mpr hid)
      have hnext : (r.slots slot).lastEventId < entry.id := by
        rw [Subscription.takes, Bool.and_eq_true, Bool.and_eq_true, Bool.and_eq_true,
          Subscription.delivers, Bool.or_eq_true, beq_iff_eq, decide_eq_true_eq] at hqueued
        exact hqueued.2.1.2.resolve_left hid
      rw [hlast] at hpast
      refine ⟨List.pairwise_cons.mpr ⟨hpast, hsorted⟩, fun e he => ?_⟩
      rcases List.mem_cons.mp he with rfl | he
      · exact hnext
      · exact hnext.trans (hpast e he)

namespace DatastarStream

/-! ## What was dropped -/

/-- The newest id of `url` that was dropped, if one was. -/
def droppedThrough (st : DatastarStream) (url : Bytes) : Option Int :=
  (st.evicted.find? fun gone => gone.1 == url).map Prod.snd

/-- The mark of `url`'s dropped frames is not below `eventId`. -/
def Dropped (st : DatastarStream) (url : Bytes) (eventId : Int) : Prop :=
  ∃ through, st.droppedThrough url = some through ∧ eventId ≤ through

theorem find?_noteEvictedIn (url : Bytes) (eventId : Int) (evicted : List (Bytes × Int)) (other : Bytes) :
    ((noteEvictedIn url eventId evicted).find? fun gone => gone.1 == other).map Prod.snd =
      if other = url then
        some (((evicted.find? fun gone => gone.1 == url).map Prod.snd).elim eventId (max · eventId))
      else (evicted.find? fun gone => gone.1 == other).map Prod.snd := by
  induction evicted with
  | nil =>
    rcases Decidable.em (other = url) with rfl | hne
    · simp [noteEvictedIn]
    · simp [noteEvictedIn, hne, Ne.symm hne]
  | cons gone rest ih =>
    unfold noteEvictedIn
    rcases Decidable.em (gone.1 = url) with hurl | hurl
    · -- the mark there is, moved on to the id if that is newer
      have hmark : (if eventId > gone.2 then (url, eventId) else gone) = (url, max gone.2 eventId) := by
        split
        · next hnewer => rw [max_eq_right (Int.le_of_lt hnewer)]
        · next holder => rw [max_eq_left (Int.not_lt.mp holder), ← hurl]
      rw [if_pos (beq_iff_eq.mpr hurl), hmark]
      rcases Decidable.em (other = url) with rfl | hne
      · simp [hurl]
      · simp [hurl, hne, Ne.symm hne]
    · rw [if_neg (by rw [beq_iff_eq]; exact hurl), List.find?_cons, List.find?_cons, List.find?_cons]
      have hnot : (gone.1 == url) = false := beq_eq_false_iff_ne.mpr hurl
      rw [hnot]
      cases hother : gone.1 == other with
      | false => exact ih
      | true =>
        have hne : other ≠ url := fun h => hurl ((eq_of_beq hother).trans h)
        rw [if_neg hne]

/-- Dropping a frame covers it, and what was covered. -/
theorem dropped_noteEvicted (st : DatastarStream) {url : Bytes} {eventId : Int} {other : Bytes} {id : Int}
    (h : st.Dropped other id ∨ other = url ∧ id ≤ eventId) : (st.noteEvicted url eventId).Dropped other id := by
  have hfind := find?_noteEvictedIn url eventId st.evicted other
  rcases Decidable.em (other = url) with rfl | hne
  · rw [if_pos rfl] at hfind
    refine ⟨_, hfind, ?_⟩
    rcases h with ⟨through, hthrough, hle⟩ | ⟨-, hle⟩
    · rw [droppedThrough] at hthrough
      rw [hthrough]
      exact hle.trans (le_max_left _ _)
    · cases (st.evicted.find? fun gone => gone.1 == other).map Prod.snd with
      | none => exact hle
      | some through => exact hle.trans (le_max_right _ _)
  · rw [if_neg hne] at hfind
    obtain ⟨through, hthrough, hle⟩ := h.resolve_right fun hsame => hne hsame.1
    exact ⟨through, hfind.trans hthrough, hle⟩

/-- A dropped frame is not above `_evicted_through`. -/
theorem Dropped.le {st : DatastarStream} {url : Bytes} {eventId : Int} (h : st.Dropped url eventId) :
    eventId ≤ st.evictedThrough url := by
  obtain ⟨through, hthrough, hle⟩ := h
  rw [droppedThrough] at hthrough
  rw [evictedThrough, hthrough]
  exact hle

/-! ## What was recorded -/

/-- The frame that a call records, under the id it takes or is given. -/
def recordedBy (st : DatastarStream) : Call → List Recorded
  | .broadcast url build counter =>
    let eventId := (st.nextId counter).2.1
    ((build eventId).map fun frame => ⟨url, eventId, frame⟩).toList
  | .deliverPeer url eventId frame => [⟨url, eventId, frame⟩]
  | .restore url eventId frame => [⟨url, eventId, frame⟩]
  | _ => []

/-- Everything that a run of calls records. -/
def chronicle (st : DatastarStream) : List Call → List Recorded
  | [] => []
  | c :: calls => st.recordedBy c ++ (st.call c).chronicle calls

/-- A stream of changes that has recorded `all` of its frames with a journal of `cap` entries. -/
structure Chronicled (st : DatastarStream) (cap : Int) (all : List Recorded) : Prop where
  changes : st.sendLatest = false
  sized : st.journalCap = cap
  ordered : OrderedById st.journal
  capped : st.journal.length ≤ cap.toNat
  own : ∀ e ∈ st.journal, e ∈ all
  /-- What is not in the journal was dropped from it. -/
  kept : ∀ e ∈ all, e ∈ st.journal ∨ st.Dropped e.url e.id
  floor : 0 ≤ st.floor

/-- What `Chronicled` is about. -/
def history (st : DatastarStream) : Bool × Int × List Recorded × List (Bytes × Int) × Int :=
  (st.sendLatest, st.journalCap, st.journal, st.evicted, st.floor)

theorem Chronicled.of_history {st st' : DatastarStream} {cap : Int} {all : List Recorded}
    (hc : st.Chronicled cap all) (hsame : st'.history = st.history) : st'.Chronicled cap all := by
  simp only [history, Prod.mk.injEq] at hsame
  obtain ⟨hlatest, hcap, hjournal, hevicted, hfloor⟩ := hsame
  constructor
  · rw [hlatest]
    exact hc.changes
  · rw [hcap]
    exact hc.sized
  · rw [hjournal]
    exact hc.ordered
  · rw [hjournal]
    exact hc.capped
  · rw [hjournal]
    exact hc.own
  · unfold Dropped droppedThrough
    rw [hjournal, hevicted]
    exact hc.kept
  · rw [hfloor]
    exact hc.floor

/-- The floor goes up. -/
theorem Chronicled.raise {st : DatastarStream} {cap : Int} {all : List Recorded} (hc : st.Chronicled cap all)
    (floor : Int) : ({ st with floor := max st.floor floor } : DatastarStream).Chronicled cap all :=
  ⟨hc.changes, hc.sized, hc.ordered, hc.capped, hc.own, hc.kept, hc.floor.trans (le_max_left _ _)⟩

/-! ## One frame recorded -/

/-- One entry is dropped for the cap, and its url's mark moved on to it. -/
theorem kept_evictOver {st : DatastarStream} {all : List Recorded}
    (hkept : ∀ e ∈ all, e ∈ st.journal ∨ st.Dropped e.url e.id) (fuel : Nat) :
    ∀ e ∈ all, e ∈ (st.evictOver fuel).journal ∨ (st.evictOver fuel).Dropped e.url e.id := by
  induction fuel generalizing st with
  | zero => exact hkept
  | succ fuel ih =>
    unfold evictOver
    split
    · exact hkept
    · next gone rest hjournal =>
      split
      · apply ih
        intro e he
        rcases hkept e he with hmem | hdropped
        · rw [hjournal] at hmem
          rcases List.mem_cons.mp hmem with rfl | hmem
          · exact Or.inr (dropped_noteEvicted _ (Or.inr ⟨rfl, Int.le_refl _⟩))
          · exact Or.inl hmem
        · exact Or.inr (dropped_noteEvicted _ (Or.inl hdropped))
      · exact hkept

/-- Evicting leaves the end of the journal, and nothing else of the stream is touched but the marks. -/
theorem evictOver_fields (st : DatastarStream) (fuel : Nat) :
    (st.evictOver fuel).journal <:+ st.journal ∧ (st.evictOver fuel).sendLatest = st.sendLatest ∧
      (st.evictOver fuel).journalCap = st.journalCap ∧ (st.evictOver fuel).floor = st.floor := by
  induction fuel generalizing st with
  | zero => exact ⟨List.suffix_refl _, rfl, rfl, rfl⟩
  | succ fuel ih =>
    unfold evictOver
    split
    · exact ⟨List.suffix_refl _, rfl, rfl, rfl⟩
    · next gone rest hjournal =>
      split
      · obtain ⟨hsuffix, hsame⟩ := ih ({ st with journal := rest }.noteEvicted gone.url gone.id)
        exact ⟨hsuffix.trans (by rw [hjournal]; exact List.suffix_cons gone rest), hsame⟩
      · exact ⟨List.suffix_refl _, rfl, rfl, rfl⟩

theorem length_evictOver {st : DatastarStream} (hcap : 0 ≤ st.journalCap) (fuel : Nat)
    (hfuel : st.journal.length ≤ st.journalCap.toNat + fuel) :
    (st.evictOver fuel).journal.length ≤ st.journalCap.toNat := by
  induction fuel generalizing st with
  | zero => exact hfuel
  | succ fuel ih =>
    unfold evictOver
    split
    · next hnil =>
      rw [hnil]
      exact Nat.zero_le _
    · next gone rest hjournal =>
      split
      · rw [hjournal, List.length_cons] at hfuel
        have hrest : rest.length ≤ st.journalCap.toNat + fuel := by omega
        exact @ih ({ st with journal := rest }.noteEvicted gone.url gone.id) hcap hrest
      · next hfits => omega

theorem record_changes {st : DatastarStream} (hchanges : st.sendLatest = false) (url : Bytes) (eventId : Int)
    (frame : Bytes) : st.record url eventId frame =
      if st.journalCap ≤ 0 then { st with recordedAny := true }.noteEvicted url eventId
      else
        { st with recordedAny := true, journal := insertById ⟨url, eventId, frame⟩ st.journal }.evictOver
          (insertById ⟨url, eventId, frame⟩ st.journal).length := by
  have hsame : (if st.sendLatest = true then st.remember url eventId frame else st) = st :=
    if_neg (by rw [hchanges]; exact Bool.false_ne_true)
  unfold record
  rw [hsame]

/-- **A frame recorded is in the journal, or dropped at once.** -/
theorem Chronicled.record {st : DatastarStream} {cap : Int} {all : List Recorded} (hc : st.Chronicled cap all)
    (url : Bytes) (eventId : Int) (frame : Bytes) :
    (st.record url eventId frame).Chronicled cap (all ++ [⟨url, eventId, frame⟩]) := by
  rw [record_changes hc.changes]
  split
  · -- no journal: every frame is dropped as it is sent
    refine ⟨hc.changes, hc.sized, hc.ordered, hc.capped, fun e he => List.mem_append_left _ (hc.own e he),
      fun e he => ?_, hc.floor⟩
    rcases List.mem_append.mp he with he | he
    · exact (hc.kept e he).imp_right fun hdropped => dropped_noteEvicted _ (Or.inl hdropped)
    · rw [List.mem_singleton.mp he]
      exact Or.inr (dropped_noteEvicted _ (Or.inr ⟨rfl, Int.le_refl _⟩))
  · next hjournals =>
    have hpos : 0 < cap := hc.sized ▸ Int.not_le.mp hjournals
    have hlen := Nat.le_add_left (insertById ⟨url, eventId, frame⟩ st.journal).length cap.toNat
    generalize hst : ({ st with
      recordedAny := true, journal := insertById ⟨url, eventId, frame⟩ st.journal } : DatastarStream) = st'
    have hjournal : st'.journal = insertById ⟨url, eventId, frame⟩ st.journal := by rw [← hst]
    have hcap : st'.journalCap = cap := by rw [← hst]; exact hc.sized
    rw [← hjournal] at hlen ⊢
    obtain ⟨hsuffix, hlatest, hsame, hfloor⟩ := evictOver_fields st' st'.journal.length
    have hlength := length_evictOver (by rw [hcap]; exact Int.le_of_lt hpos) st'.journal.length
      (by rw [hcap]; exact hlen)
    rw [hcap] at hlength
    refine ⟨?_, hsame.trans hcap, ?_, hlength, fun e he => ?_, ?_, ?_⟩
    · rw [hlatest, ← hst]
      exact hc.changes
    · refine List.Pairwise.sublist hsuffix.sublist ?_
      rw [hjournal]
      exact ordered_insertById _ hc.ordered
    · have hmem := hsuffix.subset he
      rw [hjournal] at hmem
      rcases mem_insertById.mp hmem with rfl | hmem
      · exact List.mem_append_right _ (List.mem_singleton_self _)
      · exact List.mem_append_left _ (hc.own e hmem)
    · apply kept_evictOver
      intro e he
      rw [hjournal, mem_insertById, ← hst]
      rcases List.mem_append.mp he with he | he
      · exact (hc.kept e he).imp_left Or.inr
      · exact Or.inl (Or.inl (List.mem_singleton.mp he))
    · rw [hfloor, ← hst]
      exact hc.floor

/-! ## Every call -/

theorem history_setGapped (st : DatastarStream) (slot : Int) (value : Bool) :
    (st.setGapped slot value).history = st.history := by
  unfold setGapped
  split <;> rfl

theorem history_nextId (st : DatastarStream) (counter : Int) : (st.nextId counter).1.history = st.history := by
  unfold nextId
  split <;> rfl

theorem history_catchUp (st : DatastarStream) (slot : Int) : (st.catchUp slot).history = st.history := by
  unfold catchUp
  split <;> rfl

theorem history_drain (st : DatastarStream) (slot : Int) : (st.drain slot).1.history = st.history := by
  unfold drain
  dsimp only
  split
  · exact history_catchUp _ slot
  · rfl

theorem history_replay (st : DatastarStream) (slot : Int) (url : Bytes) (lastId : Int) :
    (st.replay slot url lastId).1.history = st.history := by
  unfold replay
  split
  · rfl
  · dsimp only
    split <;> rfl

/-- An open is a subscriber's affair: the history is what it was. -/
theorem history_open (st : DatastarStream) (slotId : Int) (url : Bytes) (lastEventId : Option Int)
    (counter : Int) : (st.open slotId url lastEventId counter).1.history = st.history := by
  unfold DatastarStream.open
  split
  · rfl
  · split
    · dsimp only
      split <;> rfl
    · cases lastEventId with
      | none => exact history_setGapped _ slotId false
      | some presented =>
        dsimp only
        split
        · exact (history_setGapped _ slotId true).trans (history_setGapped _ slotId false)
        · split
          · exact (history_replay _ slotId url _).trans (history_setGapped _ slotId false)
          · exact ((history_setGapped _ slotId true).trans (history_replay _ slotId url _)).trans
              (history_setGapped _ slotId false)

theorem Chronicled.restore {st : DatastarStream} {cap : Int} {all : List Recorded}
    (hc : st.Chronicled cap all) (url : Bytes) (eventId : Int) (frame : Bytes) :
    (st.restore url eventId frame).Chronicled cap (all ++ [⟨url, eventId, frame⟩]) := by
  unfold DatastarStream.restore
  dsimp only
  have hfirst : (if st.recordedAny then st else { st with floor := max st.floor (eventId - 1) } :
      DatastarStream).Chronicled cap all := by
    split
    · exact hc
    · exact hc.raise (eventId - 1)
  generalize (if st.recordedAny then st else { st with floor := max st.floor (eventId - 1) } :
    DatastarStream) = first at hfirst ⊢
  have hrecorded := hfirst.record url eventId frame
  split
  · exact hrecorded.of_history rfl
  · exact hrecorded

theorem Chronicled.enableBus {st : DatastarStream} {cap : Int} {all : List Recorded}
    (hc : st.Chronicled cap all) (worker counter : Int) : (st.enableBus worker counter).1.Chronicled cap all := by
  unfold DatastarStream.enableBus
  dsimp only
  split
  · exact hc.of_history rfl
  · split
    · exact (hc.raise counter).of_history rfl
    · exact hc.of_history rfl

/-- **Every call** adds what it records to what there is, and loses none of it. -/
theorem Chronicled.call {st : DatastarStream} {cap : Int} {all : List Recorded} (hc : st.Chronicled cap all)
    (c : Call) : (st.call c).Chronicled cap (all ++ st.recordedBy c) := by
  cases c with
  | opened slotId url lastEventId counter =>
    rw [show all ++ st.recordedBy (.opened slotId url lastEventId counter) = all from List.append_nil all]
    exact hc.of_history (history_open st slotId url lastEventId counter)
  | broadcast url build counter =>
    have htaken := hc.of_history (history_nextId st counter)
    show (st.broadcast url build counter).1.Chronicled cap
      (all ++ ((build (st.nextId counter).2.1).map fun frame =>
        (⟨url, (st.nextId counter).2.1, frame⟩ : Recorded)).toList)
    unfold DatastarStream.broadcast
    dsimp only
    cases build (st.nextId counter).2.1 with
    | none =>
      rw [show all ++ (Option.map (fun frame => (⟨url, (st.nextId counter).2.1, frame⟩ : Recorded))
        none).toList = all from List.append_nil all]
      exact htaken
    | some frame => exact (htaken.record url (st.nextId counter).2.1 frame).of_history rfl
  | sendTo slot frame =>
    rw [show all ++ st.recordedBy (.sendTo slot frame) = all from List.append_nil all]
    exact hc.of_history rfl
  | deliverPeer url eventId frame =>
    have hrecorded := hc.record url eventId frame
    show (st.deliverPeer url eventId frame).Chronicled cap (all ++ [⟨url, eventId, frame⟩])
    apply hrecorded.of_history
    show (if eventId > (st.record url eventId frame).nextEventId then
      { st.record url eventId frame with nextEventId := eventId } else st.record url eventId frame).history = _
    split <;> rfl
  | drain slot =>
    rw [show all ++ st.recordedBy (.drain slot) = all from List.append_nil all]
    exact hc.of_history (history_drain st slot)
  | closed slot =>
    rw [show all ++ st.recordedBy (.closed slot) = all from List.append_nil all]
    exact hc.of_history (history_setGapped _ slot false)
  | restore url eventId frame => exact hc.restore url eventId frame
  | enableBus worker counter =>
    rw [show all ++ st.recordedBy (.enableBus worker counter) = all from List.append_nil all]
    exact hc.enableBus worker counter

theorem chronicled_new (capacity : Nat) (journalEntries : Int) :
    (new capacity journalEntries false).Chronicled journalEntries [] :=
  ⟨rfl, rfl, List.Pairwise.nil, Nat.zero_le _, fun _ he => (nomatch he), fun _ he => (nomatch he),
    Int.le_refl 0⟩

/-- **A run of calls** has recorded what its calls did. -/
theorem Chronicled.run {cap : Int} (calls : List Call) {st : DatastarStream} {all : List Recorded}
    (hc : st.Chronicled cap all) : (calls.foldl DatastarStream.call st).Chronicled cap (all ++ st.chronicle calls) := by
  induction calls generalizing st all with
  | nil =>
    rw [show all ++ st.chronicle [] = all from List.append_nil all]
    exact hc
  | cons c calls ih =>
    have hrest := ih (hc.call c)
    rw [List.append_assoc] at hrest
    exact hrest

/-! ## A reconnect -/

theorem caughtUp_setGapped {st : DatastarStream} {slot : Int} (hin : st.registry.inRange slot = true)
    (value : Bool) : (st.setGapped slot value).caughtUp slot = !value := by
  unfold caughtUp setGapped
  rw [if_pos hin]
  show (!st.registry.inRange slot || !Function.update st.gapped slot value slot) = !value
  rw [hin, Function.update_self]
  rfl

theorem inRange_replay (st : DatastarStream) (slot : Int) (url : Bytes) (lastId s : Int) :
    (st.replay slot url lastId).1.registry.inRange s = st.registry.inRange s := by
  have hsent := inRange_replayFrom slot (st.missed url lastId) st.registry s
  unfold replay
  split
  · rfl
  · dsimp only
    split
    · exact hsent
    · unfold SSERegistry.inRange at hsent ⊢
      rw [SSERegistry.capacity_subscribe, SSERegistry.capacity_unsubscribe]
      exact hsent

theorem gapped_replay (st : DatastarStream) (slot : Int) (url : Bytes) (lastId : Int) :
    (st.replay slot url lastId).1.gapped = st.gapped := by
  unfold replay
  split
  · rfl
  · dsimp only
    split <;> rfl

/-- A replay that sends what the journal has of `url` after `lastId` sends all that was recorded of it. -/
theorem Chronicled.owed {st : DatastarStream} {cap : Int} {all : List Recorded} (hc : st.Chronicled cap all)
    {slot : Int} {url : Bytes} {lastId : Int} (hreplayed : (st.replay slot url lastId).2 = true) :
    Owed all url lastId (st.missed url lastId) := by
  unfold replay at hreplayed
  split at hreplayed
  · cases hreplayed
  · next hcovered =>
    rw [Bool.or_eq_true, decide_eq_true_eq, decide_eq_true_eq, not_or, Int.not_lt, Int.not_lt] at hcovered
    obtain ⟨hfloor, hdropped⟩ := hcovered
    have hmem : ∀ e, e ∈ st.missed url lastId ↔ e ∈ st.journal ∧ e.url = url ∧ lastId < e.id := by
      intro e
      rw [missed, List.mem_filter, Bool.and_eq_true, beq_iff_eq, decide_eq_true_eq]
    dsimp only at hreplayed
    split at hreplayed
    · next hall =>
      have hnumbered : ∀ e ∈ st.missed url lastId, e.id ≠ NO_EVENT_ID := by
        intro e he
        have hpast := ((hmem e).mp he).2.2
        have hzero := hc.floor
        rw [NO_EVENT_ID]
        omega
      refine ⟨(ascending_replayFrom hnumbered hall).1, fun e => ?_⟩
      rw [hmem]
      constructor
      · rintro ⟨hjournal, hurl, hpast⟩
        exact ⟨hc.own e hjournal, hurl, hpast⟩
      · rintro ⟨hrecorded, hurl, hpast⟩
        -- a frame that was dropped is one the client has
        refine ⟨(hc.kept e hrecorded).resolve_right fun hgone => ?_, hurl, hpast⟩
        rw [hurl] at hgone
        exact Int.not_lt.mpr (hgone.le.trans hdropped) hpast
    · cases hreplayed

/-- What the claim of a reconnect comes to: `all` is what the stream has recorded. -/
structure Honest (st : DatastarStream) (journalEntries : Int) (all : List Recorded) : Prop where
  ordered : OrderedById st.journal
  capped : st.journal.length ≤ journalEntries.toNat
  /-- A client that is said to be current was sent all that it missed. -/
  current : ∀ slot url lastId counter, st.registry.inRange slot = true → st.pending slot = [] →
    (st.open slot url (some lastId) counter).1.caughtUp slot = true →
      ∃ owed, Owed all url lastId owed ∧
        (st.open slot url (some lastId) counter).1.pending slot = (owed.map Recorded.frame).flatten
  /-- Another is sent none of it. -/
  gap : ∀ slot url lastId counter, st.registry.inRange slot = true → st.pending slot = [] →
    (st.open slot url (some lastId) counter).1.caughtUp slot = false →
      (st.open slot url (some lastId) counter).1.pending slot = []

/-- An open of a slot with nothing pending catches it up, or says that it did not and sends nothing. -/
theorem Chronicled.open_reconnect {st : DatastarStream} {cap : Int} {all : List Recorded}
    (hc : st.Chronicled cap all) {slot : Int} (url : Bytes) (lastId counter : Int)
    (hin : st.registry.inRange slot = true) (hempty : st.pending slot = []) :
    ((st.open slot url (some lastId) counter).1.caughtUp slot = true ∧
      ∃ owed, Owed all url lastId owed ∧
        (st.open slot url (some lastId) counter).1.pending slot = (owed.map Recorded.frame).flatten) ∨
    ((st.open slot url (some lastId) counter).1.caughtUp slot = false ∧
      (st.open slot url (some lastId) counter).1.pending slot = []) := by
  have hslot : ¬ slot < 0 := by
    rw [SSERegistry.inRange, Bool.and_eq_true, decide_eq_true_eq] at hin
    omega
  unfold DatastarStream.open
  rw [if_neg hslot, if_neg (by rw [hc.changes]; exact Bool.false_ne_true)]
  dsimp only
  have hsubscribed : ∀ id, (({ st with registry := st.registry.subscribe slot url id } :
      DatastarStream).setGapped slot false).registry.inRange slot = true ∧
      (({ st with registry := st.registry.subscribe slot url id } :
        DatastarStream).setGapped slot false).pending slot = [] ∧
      (({ st with registry := st.registry.subscribe slot url id } :
        DatastarStream).setGapped slot false).caughtUp slot = true := by
    intro id
    have hin' : (st.registry.subscribe slot url id).inRange slot = true := by
      unfold SSERegistry.inRange at hin ⊢
      rw [SSERegistry.capacity_subscribe]
      exact hin
    refine ⟨by rw [registry_setGapped]; exact hin', ?_, caughtUp_setGapped hin' false⟩
    rw [pending, registry_setGapped]
    exact (SSERegistry.pending_subscribe st.registry slot url id slot).trans hempty
  rcases Decidable.em (lastId > st.currentId counter) with hahead | hnot
  · -- an id from a history that is not this stream's
    right
    rw [if_pos hahead, if_pos hahead]
    obtain ⟨hin', hempty', -⟩ := hsubscribed (st.currentId counter)
    refine ⟨caughtUp_setGapped hin' true, ?_⟩
    rw [pending, registry_setGapped]
    exact hempty'
  · rw [if_neg hnot, if_neg hnot]
    obtain ⟨hin', hempty', hcurrent⟩ := hsubscribed lastId
    have hc' : (({ st with registry := st.registry.subscribe slot url lastId } :
        DatastarStream).setGapped slot false).Chronicled cap all :=
      hc.of_history (history_setGapped _ slot false)
    generalize ({ st with registry := st.registry.subscribe slot url lastId } :
      DatastarStream).setGapped slot false = subscribed at hin' hempty' hcurrent hc' ⊢
    have hpending := pending_replay hempty' url lastId
    have hrange := inRange_replay subscribed slot url lastId slot
    cases hreplayed : (subscribed.replay slot url lastId).2 with
    | true =>
      left
      rw [if_pos rfl]
      rw [hreplayed, if_pos rfl] at hpending
      refine ⟨?_, _, hc'.owed hreplayed, hpending⟩
      unfold caughtUp at hcurrent ⊢
      rw [hrange, gapped_replay]
      exact hcurrent
    | false =>
      right
      rw [if_neg Bool.false_ne_true]
      rw [hreplayed, if_neg Bool.false_ne_true] at hpending
      refine ⟨caughtUp_setGapped (hrange.trans hin') true, ?_⟩
      rw [pending, registry_setGapped]
      exact hpending

/-- **A reconnect is all or nothing**: behind any run of calls it is caught up with every frame of its url
that the stream recorded past its id, in order, or told of a gap and sent none. -/
theorem all_or_nothing (capacity : Nat) (journalEntries : Int) (calls : List Call) :
    (calls.foldl call (new capacity journalEntries false)).Honest journalEntries
      ((new capacity journalEntries false).chronicle calls) := by
  have hc := (chronicled_new capacity journalEntries).run calls
  rw [List.nil_append] at hc
  refine ⟨hc.ordered, hc.capped, fun slot url lastId counter hin hempty hcurrent => ?_,
    fun slot url lastId counter hin hempty hgapped => ?_⟩
  · rcases hc.open_reconnect url lastId counter hin hempty with ⟨-, howed⟩ | ⟨hgapped, -⟩
    · exact howed
    · rw [hgapped] at hcurrent
      cases hcurrent
  · rcases hc.open_reconnect url lastId counter hin hempty with ⟨hcurrent, -⟩ | ⟨-, hnothing⟩
    · rw [hcurrent] at hgapped
      cases hgapped
    · exact hnothing

/-- A slot past the last is said to be current and is sent nothing; a journal of fewer than no entries
holds none. -/
theorem not_past_the_last :
    (¬ ∀ (capacity : Nat) (journalEntries : Int) (calls : List Call) (slot : Int) (url : Bytes)
        (lastId counter : Int),
      (calls.foldl call (new capacity journalEntries false)).pending slot = [] →
      let opened := ((calls.foldl call (new capacity journalEntries false)).open slot url (some lastId) counter).1
      opened.caughtUp slot = false ∧ opened.pending slot = [] ∨
        ∃ owed, Owed ((new capacity journalEntries false).chronicle calls) url lastId owed ∧
          opened.pending slot = (owed.map Recorded.frame).flatten) ∧
    ¬ ∀ (capacity : Nat) (journalEntries : Int) (calls : List Call),
      ((calls.foldl call (new capacity journalEntries false)).journal.length : Int) ≤ journalEntries := by
  constructor
  · intro hall
    have hopen := hall 1 64 [.deliverPeer [] 1 [120]] 1 [] 0 0 (by decide)
    rcases hopen with ⟨hgapped, -⟩ | ⟨owed, howed, hpending⟩
    · exact absurd hgapped (by decide)
    · have hmem : (⟨[], 1, [120]⟩ : Recorded) ∈ owed := (howed.mem _).mpr (by decide)
      have hframe : [120] ∈ owed.map Recorded.frame := List.mem_map.mpr ⟨_, hmem, rfl⟩
      have hnone : (owed.map Recorded.frame).flatten = [] := hpending.symm
      exact absurd (List.flatten_eq_nil_iff.mp hnone [120] hframe) (by decide)
  · intro hall
    exact absurd (hall 1 (-1) []) (by decide)

end DatastarStream

end MojoHttp
