import MojoHttp.Sse.Doors

/-!
# A frame is one event (`sse/format.mojo`, `pg_listen.mojo`)

`format_sse_event` splits the data it is given at every line break; the event type goes into its line
as it comes.

* **`OneEvent`** — a frame in a stream is read as one event, and what stands behind it as if it were
  not there.
* **`sseDataPayload_formatSseEventBytes`** — the payload a WebSocket subscriber is sent.
* **`formatSseEventBytes_oneEvent_iff`** — a frame is its one event exactly when its type is on one line.
-/

namespace MojoHttp

open BytesConstant

/-- `_deliver`: the frame published for a notification; `none` is a refusal. -/
def deliver (eventId : Int) (payload : Bytes) : Option Bytes :=
  (parseNotifyPayload payload).map fun envelope => formatSseEventBytes eventId envelope.event envelope.data

/-- The event id a client has behind a frame. -/
def seenId (prev : Bytes) (eventId : Int) : Bytes := if eventId = NO_EVENT_ID then prev else intText eventId

/-- The frame is one event of the type heard, wherever in a stream it stands, and its payload is the data. -/
structure OneEvent (heard : Bytes) (eventId : Int) (eventType data : Bytes) : Prop where
  read : ∀ prev rest : Bytes,
    EventStream.eventsFrom ⟨[], [], prev⟩ (EventStream.lines (formatSseEventBytes eventId eventType data ++ rest)) =
      ⟨heard, breaksAsLf data, seenId prev eventId⟩ ::
        EventStream.eventsFrom ⟨[], [], seenId prev eventId⟩ (EventStream.lines rest)
  payload : sseDataPayload (formatSseEventBytes eventId eventType data) = breaksAsLf data

/-! ## The lines of a frame -/

/-- The lines of a frame, the empty one left out. -/
def frameLines (eventId : Int) (eventType data : Bytes) : List Bytes :=
  idLines eventId ++ [EventStream.fieldLine (EventStream.name "event") eventType] ++
    (splitSseLines data).map (EventStream.fieldLine (EventStream.name "data"))

theorem formatSseEventBytes_eq (eventId : Int) (eventType data : Bytes) :
    formatSseEventBytes eventId eventType data =
      ((frameLines eventId eventType data).flatMap fun line => line ++ [LF]) ++ [LF] := by
  have hid : (if eventId != NO_EVENT_ID then ascii "id: " ++ intText eventId ++ [LF] else []) =
      (idLines eventId).flatMap fun line => line ++ [LF] := by
    unfold idLines
    by_cases hno : eventId = NO_EVENT_ID
    · rw [if_pos hno, hno]
      rfl
    · rw [if_neg hno, if_pos (bne_iff_ne.mpr hno), List.flatMap_singleton]
      rfl
  unfold formatSseEventBytes frameLines
  rw [hid, List.flatMap_append, List.flatMap_append, List.flatMap_singleton, List.flatMap_map]
  simp only [List.append_assoc]
  rfl

theorem noBreak_fieldLine {name value : Bytes} (hname : EventStream.NoBreak name)
    (hvalue : EventStream.NoBreak value) : EventStream.NoBreak (EventStream.fieldLine name value) := by
  apply hname.append
  apply EventStream.NoBreak.append (a := [EventStream.colon, EventStream.space]) _ hvalue
  unfold EventStream.NoBreak
  decide

/-- Where the type is on one line, so is every line of the frame. -/
theorem noBreak_of_mem_frameLines {eventId : Int} {eventType : Bytes} (htype : EventStream.NoBreak eventType)
    (data : Bytes) : ∀ line ∈ frameLines eventId eventType data, EventStream.NoBreak line := by
  intro line hline
  rcases List.mem_append.mp hline with hline | hline
  · rcases List.mem_append.mp hline with hline | hline
    · unfold idLines at hline
      split at hline
      · cases hline
      · rw [List.mem_singleton.mp hline]
        apply noBreak_fieldLine _ (noBreak_intText eventId).1
        unfold EventStream.NoBreak
        decide
    · rw [List.mem_singleton.mp hline]
      apply noBreak_fieldLine _ htype
      unfold EventStream.NoBreak
      decide
  · obtain ⟨part, hpart, rfl⟩ := List.mem_map.mp hline
    apply noBreak_fieldLine _ (noBreak_of_mem_splitSseLines hpart)
    unfold EventStream.NoBreak
    decide

/-- The fields before the data put the type and the id into the buffers. -/
theorem eventsFrom_frameLines (prev : Bytes) (eventId : Int) (eventType data : Bytes) (rest : List Bytes) :
    EventStream.eventsFrom ⟨[], [], prev⟩ (frameLines eventId eventType data ++ [] :: rest) =
      ⟨dispatchedType eventType, breaksAsLf data, seenId prev eventId⟩ ::
        EventStream.eventsFrom ⟨[], [], seenId prev eventId⟩ rest := by
  -- an id line sets the id and nothing else
  have hid : ∀ ls, EventStream.eventsFrom ⟨[], [], prev⟩ (idLines eventId ++ ls) =
      EventStream.eventsFrom ⟨[], [], seenId prev eventId⟩ ls := by
    intro ls
    unfold idLines seenId
    by_cases hno : eventId = NO_EVENT_ID
    · rw [if_pos hno, if_pos hno]
      rfl
    · rw [if_neg hno, if_neg hno, List.singleton_append, EventStream.eventsFrom_fieldLine (by decide) (by decide)]
      unfold EventStream.Buffers.take
      rw [if_neg (show EventStream.name "id" ≠ EventStream.name "event" by decide),
        if_neg (show EventStream.name "id" ≠ EventStream.name "data" by decide), if_pos rfl,
        if_neg (noBreak_intText eventId).2]
  have hevent : ∀ ls, EventStream.eventsFrom ⟨[], [], seenId prev eventId⟩
      (EventStream.fieldLine (EventStream.name "event") eventType :: ls) =
        EventStream.eventsFrom ⟨[], eventType, seenId prev eventId⟩ ls := by
    intro ls
    rw [EventStream.eventsFrom_fieldLine (by decide) (by decide)]
    rfl
  have hblock := EventStream.eventsFrom_block (splitSseLines_ne_nil data)
    (show (EventStream.Buffers.mk [] eventType (seenId prev eventId)).data = [] from rfl) rest
  unfold frameLines
  rw [List.append_assoc, List.append_assoc, hid, List.singleton_append, hevent, hblock,
    intercalate_splitSseLines]
  rfl

/-! ## The payload of a frame -/

theorem splitSseLines_line {line : Bytes} (hline : EventStream.NoBreak line) (rest : Bytes) :
    splitSseLines (line ++ LF :: rest) = line :: splitSseLines rest := by
  have hend : ∀ l, splitSseLinesFrom (LF :: rest) l false = l :: splitSseLinesFrom rest [] false := by
    intro l
    rw [splitSseLinesFrom, Bool.and_false, if_neg Bool.false_ne_true, BEq.rfl, Bool.or_true, if_pos rfl,
      show (LF == CR) = false from rfl]
  unfold splitSseLines
  by_cases hnil : line = []
  · rw [hnil]
    exact hend []
  · rw [splitSseLinesFrom_append hline hnil, hend, List.nil_append]

theorem splitSseLines_unlines {block : List Bytes} (hblock : ∀ line ∈ block, EventStream.NoBreak line)
    (rest : Bytes) :
    splitSseLines ((block.flatMap fun line => line ++ [LF]) ++ rest) = block ++ splitSseLines rest := by
  induction block with
  | nil => rfl
  | cons line block ih =>
    obtain ⟨hline, hrest⟩ := List.forall_mem_cons.mp hblock
    rw [List.flatMap_cons, List.append_assoc, List.append_assoc, List.singleton_append,
      splitSseLines_line hline, ih hrest]
    rfl

theorem sseField_fieldLine {name : Bytes} (hname : COLON ∉ name) (value : Bytes) :
    sseField (EventStream.fieldLine name value) = (name, value) := by
  have hall : ∀ b ∈ name, (b != COLON) = true := by
    intro b hb
    rw [bne_iff_ne]
    rintro rfl
    exact hname hb
  have htake : (EventStream.fieldLine name value).takeWhile (· != COLON) = name := by
    unfold EventStream.fieldLine
    rw [List.takeWhile_append_of_pos hall, List.takeWhile_cons, if_neg (by decide), List.append_nil]
  have hdrop : (EventStream.fieldLine name value).drop name.length =
      EventStream.colon :: EventStream.space :: value := by
    unfold EventStream.fieldLine
    rw [List.drop_left]
  unfold sseField
  rw [htake]
  dsimp only
  rw [hdrop]
  rfl

theorem sseDataPayload_formatSseEventBytes (eventId : Int) {eventType : Bytes}
    (htype : EventStream.NoBreak eventType) (data : Bytes) :
    sseDataPayload (formatSseEventBytes eventId eventType data) = breaksAsLf data := by
  have hsplit : splitSseLines (formatSseEventBytes eventId eventType data) =
      frameLines eventId eventType data ++ [[], []] := by
    rw [formatSseEventBytes_eq, splitSseLines_unlines (noBreak_of_mem_frameLines htype data)]
    rfl
  have hnonempty : ∀ line ∈ frameLines eventId eventType data, (!line.isEmpty) = true := by
    have hfield : ∀ name value : Bytes, (!(EventStream.fieldLine name value).isEmpty) = true := by
      intro name value
      unfold EventStream.fieldLine
      simp
    intro line hline
    rcases List.mem_append.mp hline with hline | hline
    · rcases List.mem_append.mp hline with hline | hline
      · unfold idLines at hline
        split at hline
        · cases hline
        · rw [List.mem_singleton.mp hline]
          exact hfield _ _
      · rw [List.mem_singleton.mp hline]
        exact hfield _ _
    · obtain ⟨part, _, rfl⟩ := List.mem_map.mp hline
      exact hfield _ _
  -- of the fields, `data` alone is kept
  have hother : ∀ name value : Bytes, COLON ∉ name → name ≠ ascii "data" →
      ((EventStream.fieldLine name value).getD 0 0 != COLON &&
        (sseField (EventStream.fieldLine name value)).1 == ascii "data") = false := by
    intro name value hname hne
    rw [sseField_fieldLine hname, beq_eq_false_iff_ne.mpr hne, Bool.and_false]
  have hdata : ∀ value : Bytes,
      ((EventStream.fieldLine (EventStream.name "data") value).getD 0 0 != COLON &&
        (sseField (EventStream.fieldLine (EventStream.name "data") value)).1 == ascii "data") = true := by
    intro value
    rw [sseField_fieldLine (by decide)]
    rfl
  have hid : (idLines eventId).filter (fun line =>
      line.getD 0 0 != COLON && (sseField line).1 == ascii "data") = [] := by
    unfold idLines
    split
    · rfl
    · rw [List.filter_cons_of_neg (by rw [hother _ _ (by decide) (by decide)]; decide)]
      rfl
  have hparts : ((splitSseLines data).map (EventStream.fieldLine (EventStream.name "data"))).filter (fun line =>
      line.getD 0 0 != COLON && (sseField line).1 == ascii "data") =
        (splitSseLines data).map (EventStream.fieldLine (EventStream.name "data")) := by
    rw [List.filter_eq_self]
    intro line hline
    obtain ⟨part, _, rfl⟩ := List.mem_map.mp hline
    exact hdata part
  have hvalues : sseDataLines (frameLines eventId eventType data ++ [[], []]) = splitSseLines data := by
    unfold sseDataLines
    rw [List.takeWhile_append_of_pos hnonempty, List.takeWhile_cons, if_neg (by decide), List.append_nil]
    unfold frameLines
    rw [List.filter_append, List.filter_append, hid, hparts, List.filter_cons_of_neg (by
      rw [hother _ _ (by decide) (by decide)]; decide), List.filter_nil, List.nil_append, List.nil_append,
      List.map_map]
    apply List.map_id''
    intro value
    exact congrArg Prod.snd (sseField_fieldLine (by decide) value)
  unfold sseDataPayload
  rw [hsplit, hvalues, intercalate_splitSseLines]

/-! ## When a frame is one event -/

theorem oneEvent_of_noBreak (eventId : Int) {eventType : Bytes} (htype : EventStream.NoBreak eventType)
    (data : Bytes) : OneEvent (dispatchedType eventType) eventId eventType data := by
  refine ⟨?_, sseDataPayload_formatSseEventBytes eventId htype data⟩
  intro prev rest
  have hlines : EventStream.lines (formatSseEventBytes eventId eventType data ++ rest) =
      frameLines eventId eventType data ++ [] :: EventStream.lines rest := by
    rw [formatSseEventBytes_eq, List.append_assoc,
      EventStream.lines_unlines (noBreak_of_mem_frameLines htype data)]
    rfl
  rw [hlines]
  exact eventsFrom_frameLines prev eventId eventType data _

/-- What a client hears as a type is on one line. -/
theorem OneEvent.noBreak {heard : Bytes} {eventId : Int} {eventType data : Bytes}
    (h : OneEvent heard eventId eventType data) : EventStream.NoBreak heard := by
  have hread := h.read [] []
  have hmem : ⟨heard, breaksAsLf data, seenId [] eventId⟩ ∈ EventStream.eventsFrom ⟨[], [], []⟩
      (EventStream.lines (formatSseEventBytes eventId eventType data ++ [])) := by
    rw [hread]
    exact List.mem_cons_self
  exact EventStream.noBreak_type_of_mem_eventsFrom ⟨List.not_mem_nil, List.not_mem_nil⟩
    (EventStream.noBreak_of_mem_lines _) _ hmem

/-- **A frame is one event exactly when its type is on one line.** Whatever the id and the data, the
frame is then read as one event whose data is the argument with CRLF, CR and LF each one break, whose
id is the one given, and which leaves the stream behind it alone; an empty type is read as `message`,
the type of an event without one. A type with a CR or an LF in it is never the type of the event. -/
theorem formatSseEventBytes_oneEvent_iff (eventId : Int) (eventType data : Bytes) :
    (OneEvent eventType eventId eventType data ↔ EventStream.NoBreak eventType ∧ eventType ≠ []) ∧
      (OneEvent (dispatchedType eventType) eventId eventType data ↔ EventStream.NoBreak eventType) := by
  have hnonempty : eventType ≠ [] → dispatchedType eventType = eventType := fun hne => if_neg hne
  refine ⟨⟨?_, ?_⟩, ?_, ?_⟩
  · intro h
    refine ⟨h.noBreak, ?_⟩
    rintro rfl
    -- the empty type's frame is read as a `message`
    have hmessage := (oneEvent_of_noBreak eventId h.noBreak data).read [] []
    rw [h.read [] []] at hmessage
    have htype := congrArg EventStream.Event.type (List.cons.inj hmessage).1
    exact absurd htype (show ([] : Bytes) ≠ ascii "message" by decide)
  · rintro ⟨htype, hne⟩
    have h := oneEvent_of_noBreak eventId htype data
    rw [hnonempty hne] at h
    exact h
  · intro h
    by_cases hne : eventType = []
    · rw [hne]
      exact ⟨List.not_mem_nil, List.not_mem_nil⟩
    · have hheard := h.noBreak
      rw [hnonempty hne] at hheard
      exact hheard
  · intro htype
    exact oneEvent_of_noBreak eventId htype data

/-- A notification whose type ends its line, adds a field and ends the event: two events reach the stream. -/
theorem deliver_forged :
    deliver 1 (ascii "\x7b\"channel\":\"news\",\"event\":\"a\\ndata: forged\\n\",\"data\":\"x\"\x7d") =
        some (formatSseEventBytes 1 (ascii "a\ndata: forged\n") (ascii "x")) ∧
      EventStream.events (formatSseEventBytes 1 (ascii "a\ndata: forged\n") (ascii "x")) =
        [⟨ascii "a", ascii "forged", ascii "1"⟩, ⟨ascii "message", ascii "x", ascii "1"⟩] ∧
      ¬ OneEvent (ascii "a\ndata: forged\n") 1 (ascii "a\ndata: forged\n") (ascii "x") := by
  refine ⟨by decide +kernel, by decide +kernel, ?_⟩
  intro h
  have hlf : CrlfText.lf ∈ ascii "a\ndata: forged\n" := by decide +kernel
  exact h.noBreak.2 hlf

end MojoHttp
