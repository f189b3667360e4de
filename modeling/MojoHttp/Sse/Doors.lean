import MojoHttp.Json.Dumps
import MojoHttp.Lib.EventStream
import MojoHttp.Sse.Format

/-!
# Two doors to publish through (`m0pub.py`, `pg_envelope.mojo`)

A publisher in the server frames its data itself and writes it to the bus. One outside sends it as a NOTIFY, whose
payload the listener reads and frames.

* **`sseEvent`**, **`notifySql`**, **`parseNotifyPayload`** — the two doors, and the listener's reader.
* **`breaksAsLf`** — what a client has of a text: CRLF, CR and LF each one line break.
* **`events_formatSseEventBytes`**, **`events_sseEvent`** — the frames of the two doors, read as an event stream.
* **`both_doors`** — the two doors publish one event.
-/

namespace MojoHttp

open BytesConstant

/-! ## The publisher -/

def newlineChar : CodePoint := codePoint LF

/-- The boundaries of `str.splitlines`. -/
def isLineBoundary (c : CodePoint) : Bool :=
  c.val == 0x0A || c.val == 0x0B || c.val == 0x0C || c.val == 0x0D || c.val == 0x1C || c.val == 0x1D ||
    c.val == 0x1E || c.val == 0x85 || c.val == 0x2028 || c.val == 0x2029

/-- `splitlines` from some way into a line; a boundary ends a line, and the end of the text ends one that holds
anything. -/
def splitlinesFrom : Str → (line : Str) → (afterCr : Bool) → List Str
  | [], line, _ => if line.isEmpty then [] else [line]
  | c :: rest, line, afterCr =>
    if c.val == 0x0A && afterCr then splitlinesFrom rest line false
    else if isLineBoundary c then line :: splitlinesFrom rest [] (c.val == 0x0D)
    else splitlinesFrom rest (line ++ [c]) false

/-- `str.splitlines`. -/
def splitlines (s : Str) : List Str := splitlinesFrom s [] false

/-- `sse_event`; `none` where the text has no UTF-8 encoding and `encode` raises. -/
def sseEvent (data : Str) (event : Option Str) (eventId : Int) : Option Bytes :=
  let idLine := if eventId != NO_EVENT_ID then [Str.ofBytes (ascii "id: " ++ intText eventId)] else []
  let eventLine :=
    match event with
    | none => []
    | some event => if event.isEmpty then [] else [Str.ofBytes (ascii "event: ") ++ event]
  let parts := if (splitlines data).isEmpty then [[]] else splitlines data
  let lines := idLine ++ eventLine ++ parts.map fun line => Str.ofBytes (ascii "data: ") ++ line
  Str.encodeUtf8 ([newlineChar].intercalate lines ++ [newlineChar, newlineChar])

def PG_NOTIFY_CHANNEL : Bytes := ascii "m0"
def PG_NOTIFY_MAX_BYTES : Nat := 7999

/-- A statement and its parameters. -/
structure Statement where
  sql : Bytes
  parameters : List Bytes
  deriving Repr, DecidableEq

/-- `ValueError`: the payload's length is past the limit. -/
inductive NotifyError
  | tooLong (length : Nat)
  deriving Repr, DecidableEq

/-- The payload of `notify_sql`. -/
def notifyPayload (channel data : Str) (event : Option Str) : Bytes :=
  Json.dumps [(ascii "channel", channel), (ascii "event", event.getD []), (ascii "data", data)]

/-- `notify_sql`. -/
def notifySql (channel data : Str) (event : Option Str) : Except NotifyError Statement :=
  let payload := notifyPayload channel data event
  if payload.length > PG_NOTIFY_MAX_BYTES then .error (.tooLong payload.length)
  else .ok ⟨ascii "SELECT pg_notify(%s, %s)", [PG_NOTIFY_CHANNEL, payload]⟩

/-! ## The listener -/

/-- `channel_is_reserved`. -/
def channelIsReserved (url : Bytes) : Bool := url.length > 0 && url.getD 0 0 == 0x01

/-- `NotifyEnvelope`. -/
structure NotifyEnvelope where
  channel : Bytes
  event : Bytes
  data : Bytes
  deriving Repr, DecidableEq

/-- `_optional_string`. -/
def optionalString (payload field : Bytes) : Option Bytes :=
  if !Json.hasJsonField payload field then some [] else Json.parseJsonString payload field

/-- `parse_notify_payload`. -/
def parseNotifyPayload (payload : Bytes) : Option NotifyEnvelope :=
  match Json.parseJsonString payload (ascii "channel") with
  | none => none
  | some channel =>
    if channel.length == 0 then none
    else if channelIsReserved channel then none
    else
      match optionalString payload (ascii "event") with
      | none => none
      | some event =>
        match optionalString payload (ascii "data") with
        | none => none
        | some data => some ⟨channel, event, data⟩

/-- **The listener reads back what was sent**: the channel, unless it is empty or reserved, the event and the data. -/
theorem parseNotifyPayload_notifyPayload {channel data : Str} {event : Option Str} {c e d : Bytes}
    (hc : channel.encodeUtf8 = some c) (he : (event.getD []).encodeUtf8 = some e) (hd : data.encodeUtf8 = some d) :
    parseNotifyPayload (notifyPayload channel data event) =
      if c.length == 0 || channelIsReserved c then none else some ⟨c, e, d⟩ := by
  have hkeys : ∀ m ∈ [(ascii "channel", channel), (ascii "event", event.getD []), (ascii "data", data)],
      Json.PlainKey m.1 := by
    simp only [List.forall_mem_cons, List.not_mem_nil, false_implies, implies_true, and_true, Json.PlainKey]
    decide
  have hchannel : Json.parseJsonString (notifyPayload channel data event) (ascii "channel") = some c :=
    Json.parseJsonString_dumps hkeys rfl hc
  have hevent : optionalString (notifyPayload channel data event) (ascii "event") = some e := by
    have hhas : Json.hasJsonField (notifyPayload channel data event) (ascii "event") = true :=
      Json.hasJsonField_dumps hkeys rfl
    unfold optionalString
    rw [hhas, Bool.not_true, if_neg Bool.false_ne_true]
    exact Json.parseJsonString_dumps hkeys rfl he
  have hdata : optionalString (notifyPayload channel data event) (ascii "data") = some d := by
    have hhas : Json.hasJsonField (notifyPayload channel data event) (ascii "data") = true :=
      Json.hasJsonField_dumps hkeys rfl
    unfold optionalString
    rw [hhas, Bool.not_true, if_neg Bool.false_ne_true]
    exact Json.parseJsonString_dumps hkeys rfl hd
  unfold parseNotifyPayload
  rw [hchannel, hevent, hdata]
  dsimp only
  cases hempty : c.length == 0 with
  | true => rfl
  | false =>
    cases hreserved : channelIsReserved c with
    | true => rfl
    | false => rfl

/-! ## The frames, read as an event stream -/

/-- A text as a client reads it: CRLF, CR and LF are one line break each. -/
def breaksAsLf : Bytes → Bytes
  | [] => []
  | c :: rest =>
    if c = CR then
      match rest with
      | [] => [LF]
      | n :: rest => if n = LF then LF :: breaksAsLf rest else LF :: breaksAsLf (n :: rest)
    else c :: breaksAsLf rest

theorem breaksAsLf_of_ne {c : UInt8} (hc : c ≠ CR) (rest : Bytes) : breaksAsLf (c :: rest) = c :: breaksAsLf rest := by
  rw [breaksAsLf.eq_def]
  dsimp only
  rw [if_neg hc]

/-- An LF behind a CR belongs to its break. -/
theorem breaksAsLf_cr (rest : Bytes) :
    breaksAsLf (CR :: rest) = LF :: breaksAsLf (if rest.head? = some LF then rest.tail else rest) := by
  rw [breaksAsLf.eq_def]
  dsimp only
  rw [if_pos rfl]
  cases rest with
  | nil => rfl
  | cons n rest =>
    rw [List.head?_cons, List.tail_cons]
    dsimp only
    by_cases hn : n = LF
    · rw [if_pos hn, if_pos (congrArg some hn)]
    · rw [if_neg hn, if_neg (fun h => hn (Option.some.inj h))]

theorem splitSseLinesFrom_ne_nil (data line : Bytes) (afterCr : Bool) : splitSseLinesFrom data line afterCr ≠ [] := by
  induction data generalizing line afterCr with
  | nil => exact List.cons_ne_nil _ _
  | cons c rest ih =>
    unfold splitSseLinesFrom
    by_cases hskip : (c == LF && afterCr) = true
    · rw [if_pos hskip]
      exact ih line false
    · rw [if_neg hskip]
      by_cases hbreak : (c == CR || c == LF) = true
      · rw [if_pos hbreak]
        exact List.cons_ne_nil _ _
      · rw [if_neg hbreak]
        exact ih (line ++ [c]) false

theorem splitSseLines_ne_nil (data : Bytes) : splitSseLines data ≠ [] := splitSseLinesFrom_ne_nil data [] false

theorem intercalate_cons {line : Bytes} {lines : List Bytes} (hne : lines ≠ []) :
    [LF].intercalate (line :: lines) = line ++ LF :: [LF].intercalate lines := by
  rw [List.intercalate_cons_of_ne_nil hne, List.append_assoc, List.singleton_append]

/-- The lines of a text, put together with an LF between them, are the text with its breaks as LF. -/
theorem intercalate_splitSseLines (data : Bytes) : [LF].intercalate (splitSseLines data) = breaksAsLf data := by
  -- behind a CR, an LF in front of what is left belongs to the break already taken
  have hfrom : ∀ (data line : Bytes), ([LF].intercalate (splitSseLinesFrom data line false) = line ++ breaksAsLf data) ∧
      [LF].intercalate (splitSseLinesFrom data line true) =
        line ++ breaksAsLf (if data.head? = some LF then data.tail else data) := by
    intro data
    induction data with
    | nil =>
      intro line
      simp [splitSseLinesFrom, breaksAsLf]
    | cons c rest ih =>
      have hother : ∀ line, c ≠ CR → c ≠ LF → ∀ afterCr,
          [LF].intercalate (splitSseLinesFrom (c :: rest) line afterCr) = line ++ breaksAsLf (c :: rest) := by
        intro line hcr hlf afterCr
        rw [splitSseLinesFrom, beq_eq_false_iff_ne.mpr hlf, Bool.false_and, if_neg Bool.false_ne_true,
          beq_eq_false_iff_ne.mpr hcr, Bool.or_self, if_neg Bool.false_ne_true, (ih _).1, breaksAsLf_of_ne hcr,
          List.append_assoc, List.singleton_append]
      have hcrCase : ∀ line, c = CR → ∀ afterCr,
          [LF].intercalate (splitSseLinesFrom (c :: rest) line afterCr) = line ++ breaksAsLf (c :: rest) := by
        rintro line rfl afterCr
        rw [splitSseLinesFrom, show (CR == LF) = false from rfl, Bool.false_and, if_neg Bool.false_ne_true,
          BEq.rfl, Bool.true_or, if_pos rfl, intercalate_cons (splitSseLinesFrom_ne_nil _ _ _), (ih []).2,
          List.nil_append, breaksAsLf_cr]
      have hlfCase : ∀ line, c = LF →
          [LF].intercalate (splitSseLinesFrom (c :: rest) line false) = line ++ breaksAsLf (c :: rest) := by
        rintro line rfl
        rw [splitSseLinesFrom, Bool.and_false, if_neg Bool.false_ne_true, BEq.rfl, Bool.or_true, if_pos rfl,
          intercalate_cons (splitSseLinesFrom_ne_nil _ _ _), show (LF == CR) = false from rfl, (ih []).1,
          List.nil_append, breaksAsLf_of_ne (show LF ≠ CR by decide)]
      intro line
      rw [List.head?_cons, List.tail_cons]
      by_cases hcr : c = CR
      · refine ⟨hcrCase line hcr false, ?_⟩
        rw [if_neg (by rw [hcr]; decide)]
        exact hcrCase line hcr true
      by_cases hlf : c = LF
      · refine ⟨hlfCase line hlf, ?_⟩
        rw [if_pos (congrArg some hlf), splitSseLinesFrom, hlf, BEq.rfl, Bool.and_true, if_pos rfl]
        exact (ih line).1
      · refine ⟨hother line hcr hlf false, ?_⟩
        rw [if_neg (fun h => hlf (Option.some.inj h))]
        exact hother line hcr hlf true
  exact (hfrom data []).1

/-- No line of a text holds a break. -/
theorem noBreak_of_mem_splitSseLines {data part : Bytes} (hpart : part ∈ splitSseLines data) :
    EventStream.NoBreak part := by
  have hfrom : ∀ (data line : Bytes) (afterCr : Bool), EventStream.NoBreak line →
      ∀ part ∈ splitSseLinesFrom data line afterCr, EventStream.NoBreak part := by
    intro data
    induction data with
    | nil =>
      intro line afterCr hline part hpart
      rw [List.mem_singleton.mp hpart]
      exact hline
    | cons c rest ih =>
      intro line afterCr hline part hpart
      unfold splitSseLinesFrom at hpart
      by_cases hskip : (c == LF && afterCr) = true
      · rw [if_pos hskip] at hpart
        exact ih line false hline part hpart
      · rw [if_neg hskip] at hpart
        by_cases hbreak : (c == CR || c == LF) = true
        · rw [if_pos hbreak] at hpart
          rcases List.mem_cons.mp hpart with rfl | hpart
          · exact hline
          · exact ih [] _ ⟨List.not_mem_nil, List.not_mem_nil⟩ part hpart
        · rw [if_neg hbreak] at hpart
          rw [Bool.or_eq_true, beq_iff_eq, beq_iff_eq, not_or] at hbreak
          refine ih (line ++ [c]) false (hline.append ⟨fun h => ?_, fun h => ?_⟩) part hpart
          · exact hbreak.1 (List.mem_singleton.mp h).symm
          · exact hbreak.2 (List.mem_singleton.mp h).symm
  exact hfrom data [] false ⟨List.not_mem_nil, List.not_mem_nil⟩ part hpart

/-- The line that numbers an event. -/
def idLines (eventId : Int) : List Bytes :=
  if eventId = NO_EVENT_ID then [] else [EventStream.fieldLine (EventStream.name "id") (intText eventId)]

/-- The id a client remembers of it. -/
def rememberedId (eventId : Int) : Bytes := if eventId = NO_EVENT_ID then [] else intText eventId

/-- The type a client dispatches. -/
def dispatchedType (type : Bytes) : Bytes := if type = [] then ascii "message" else type

theorem noBreak_intText (x : Int) : EventStream.NoBreak (intText x) ∧ 0 ∉ intText x := by
  have hbyte : ∀ b ∈ intText x, b = 0x2D ∨ 0x30 ≤ b ∧ b ≤ 0x39 := by
    intro b hb
    unfold intText at hb
    split at hb
    · rcases List.mem_cons.mp hb with rfl | hb
      · exact Or.inl rfl
      · exact Or.inr (decimal_digits _ b hb)
    · exact Or.inr (decimal_digits _ b hb)
  exact ⟨⟨fun h => absurd (hbyte _ h) (by decide), fun h => absurd (hbyte _ h) (by decide)⟩,
    fun h => absurd (hbyte _ h) (by decide)⟩

/-- **A frame of fields** is one event: its type, its data with an LF between the parts, its id. -/
theorem events_frame {eventId : Int} {type : Bytes} {eventLines : List Bytes}
    (heventLines : eventLines = [EventStream.fieldLine (EventStream.name "event") type] ∨ eventLines = [] ∧ type = [])
    (htype : EventStream.NoBreak type) {parts : List Bytes} (hne : parts ≠ [])
    (hparts : ∀ part ∈ parts, EventStream.NoBreak part) :
    EventStream.events (((idLines eventId ++ eventLines ++
        parts.map (EventStream.fieldLine (EventStream.name "data"))).flatMap fun line => line ++ [LF]) ++ [LF]) =
      [⟨dispatchedType type, [LF].intercalate parts, rememberedId eventId⟩] := by
  have hname : ∀ {n v : Bytes}, EventStream.NoBreak n → EventStream.NoBreak v →
      EventStream.NoBreak (EventStream.fieldLine n v) := by
    intro n v hn hv
    exact hn.append (EventStream.NoBreak.append (a := [EventStream.colon, EventStream.space]) (by
      unfold EventStream.NoBreak
      decide) hv)
  have hid : ∀ line ∈ idLines eventId, EventStream.NoBreak line := by
    unfold idLines
    split
    · exact fun _ h => nomatch h
    · intro line hline
      rw [List.mem_singleton.mp hline]
      exact hname (by unfold EventStream.NoBreak; decide) (noBreak_intText eventId).1
  have hevent : ∀ line ∈ eventLines, EventStream.NoBreak line := by
    rcases heventLines with rfl | ⟨rfl, -⟩
    · intro line hline
      rw [List.mem_singleton.mp hline]
      exact hname (by unfold EventStream.NoBreak; decide) htype
    · exact fun _ h => nomatch h
  have hdata : ∀ line ∈ parts.map (EventStream.fieldLine (EventStream.name "data")), EventStream.NoBreak line := by
    intro line hline
    obtain ⟨part, hpart, rfl⟩ := List.mem_map.mp hline
    exact hname (by unfold EventStream.NoBreak; decide) (hparts part hpart)
  have hlines : EventStream.lines (((idLines eventId ++ eventLines ++
        parts.map (EventStream.fieldLine (EventStream.name "data"))).flatMap fun line => line ++ [LF]) ++ [LF]) =
      idLines eventId ++ eventLines ++ parts.map (EventStream.fieldLine (EventStream.name "data")) ++ [[]] :=
    EventStream.lines_unlines (fun line hline => by
      rcases List.mem_append.mp hline with hline | hline
      · rcases List.mem_append.mp hline with hline | hline
        · exact hid line hline
        · exact hevent line hline
      · exact hdata line hline) [LF]
  unfold EventStream.events
  rw [hlines, List.append_assoc, List.append_assoc]
  -- the id line, where there is one, sets the id and nothing else
  have hidStep : ∀ rest, EventStream.eventsFrom ⟨[], [], []⟩ (idLines eventId ++ rest) =
      EventStream.eventsFrom ⟨[], [], rememberedId eventId⟩ rest := by
    intro rest
    unfold idLines rememberedId
    by_cases hno : eventId = NO_EVENT_ID
    · rw [if_pos hno, if_pos hno]
      rfl
    · rw [if_neg hno, if_neg hno, List.singleton_append, EventStream.eventsFrom_fieldLine (by decide) (by decide)]
      unfold EventStream.Buffers.take
      rw [if_neg (show EventStream.name "id" ≠ EventStream.name "event" by decide),
        if_neg (show EventStream.name "id" ≠ EventStream.name "data" by decide), if_pos rfl,
        if_neg (noBreak_intText eventId).2]
  have heventStep : ∀ rest, EventStream.eventsFrom ⟨[], [], rememberedId eventId⟩ (eventLines ++ rest) =
      EventStream.eventsFrom ⟨[], type, rememberedId eventId⟩ rest := by
    intro rest
    rcases heventLines with rfl | ⟨rfl, rfl⟩
    · rw [List.singleton_append, EventStream.eventsFrom_fieldLine (by decide) (by decide)]
      rfl
    · rfl
  rw [hidStep, heventStep, EventStream.events_block hne rfl]
  rfl

/-- **The listener's frame** is one event, its data the argument with its breaks read as one LF each. -/
theorem events_formatSseEventBytes (eventId : Int) {type : Bytes} (htype : EventStream.NoBreak type) (data : Bytes) :
    EventStream.events (formatSseEventBytes eventId type data) =
      [⟨dispatchedType type, breaksAsLf data, rememberedId eventId⟩] := by
  have hframe : formatSseEventBytes eventId type data =
      ((idLines eventId ++ [EventStream.fieldLine (EventStream.name "event") type] ++
        (splitSseLines data).map (EventStream.fieldLine (EventStream.name "data"))).flatMap fun line => line ++ [LF]) ++
          [LF] := by
    have hid : (if eventId != NO_EVENT_ID then ascii "id: " ++ intText eventId ++ [LF] else []) =
        (idLines eventId).flatMap fun line => line ++ [LF] := by
      unfold idLines
      by_cases hno : eventId = NO_EVENT_ID
      · rw [if_pos hno, hno]
        rfl
      · rw [if_neg hno, if_pos (bne_iff_ne.mpr hno), List.flatMap_singleton]
        rfl
    unfold formatSseEventBytes
    rw [hid, List.flatMap_append, List.flatMap_append, List.flatMap_singleton, List.flatMap_map]
    simp only [List.append_assoc]
    rfl
  rw [hframe, events_frame (Or.inl rfl) htype (splitSseLines_ne_nil data)
    (fun part hpart => noBreak_of_mem_splitSseLines hpart), intercalate_splitSseLines]

/-! ## The publisher's lines -/

/-- Of the boundaries of `splitlines` only CR and LF, and no break at the end. -/
structure PlainBreaks (data : Str) : Prop where
  only : ∀ c ∈ data, isLineBoundary c = true → c = codePoint CR ∨ c = codePoint LF
  last : ∀ c, data.getLast? = some c → isLineBoundary c = false

/-- The bytes of a code point that is neither CR nor LF are neither. -/
theorem noBreak_utf8 {c : CodePoint} (hcr : c ≠ codePoint CR) (hlf : c ≠ codePoint LF) :
    EventStream.NoBreak (Json.utf8 c.val) := by
  have hne : ∀ b : UInt8, c ≠ codePoint b → c.val ≠ b.toNat := fun b hb heq => hb (Fin.ext heq)
  have hbyte : ∀ b ∈ Json.utf8 c.val, b.toNat = c.val ∨ 0x80 ≤ b.toNat := by
    have hlt := c.isLt
    intro b hb
    unfold Json.utf8 at hb
    split at hb
    · left
      rw [List.mem_singleton.mp hb, UInt8.toNat_ofNat_of_lt' (by show c.val < 256; omega)]
    · right
      split at hb
      · simp only [List.mem_cons, List.not_mem_nil, or_false] at hb
        rcases hb with rfl | rfl
        · rw [UInt8.toNat_ofNat_of_lt' (show 0xC0 + c.val / 64 < 256 by omega)]
          omega
        · rw [UInt8.toNat_ofNat_of_lt' (show 0x80 + c.val % 64 < 256 by omega)]
          omega
      · split at hb
        · simp only [List.mem_cons, List.not_mem_nil, or_false] at hb
          rcases hb with rfl | rfl | rfl
          · rw [UInt8.toNat_ofNat_of_lt' (show 0xE0 + c.val / 4096 < 256 by omega)]
            omega
          · rw [UInt8.toNat_ofNat_of_lt' (show 0x80 + c.val / 64 % 64 < 256 by omega)]
            omega
          · rw [UInt8.toNat_ofNat_of_lt' (show 0x80 + c.val % 64 < 256 by omega)]
            omega
        · simp only [List.mem_cons, List.not_mem_nil, or_false] at hb
          rcases hb with rfl | rfl | rfl | rfl
          · rw [UInt8.toNat_ofNat_of_lt' (show 0xF0 + c.val / 262144 < 256 by omega)]
            omega
          · rw [UInt8.toNat_ofNat_of_lt' (show 0x80 + c.val / 4096 % 64 < 256 by omega)]
            omega
          · rw [UInt8.toNat_ofNat_of_lt' (show 0x80 + c.val / 64 % 64 < 256 by omega)]
            omega
          · rw [UInt8.toNat_ofNat_of_lt' (show 0x80 + c.val % 64 < 256 by omega)]
            omega
  refine ⟨fun hin => ?_, fun hin => ?_⟩
  · rcases hbyte _ hin with heq | hge
    · exact hne CR hcr heq.symm
    · revert hge
      decide
  · rcases hbyte _ hin with heq | hge
    · exact hne LF hlf heq.symm
    · revert hge
      decide

theorem splitSseLinesFrom_append {text : Bytes} (htext : EventStream.NoBreak text) (hne : text ≠ []) (rest line : Bytes)
    (afterCr : Bool) : splitSseLinesFrom (text ++ rest) line afterCr = splitSseLinesFrom rest (line ++ text) false := by
  induction text generalizing line afterCr with
  | nil => exact absurd rfl hne
  | cons c text ih =>
    obtain ⟨hcr, hlf⟩ := htext
    rw [List.mem_cons, not_or] at hcr hlf
    have hc : (c == LF) = false ∧ (c == CR) = false :=
      ⟨beq_eq_false_iff_ne.mpr fun h => hlf.1 h.symm, beq_eq_false_iff_ne.mpr fun h => hcr.1 h.symm⟩
    rw [List.cons_append, splitSseLinesFrom, hc.1, Bool.false_and, if_neg Bool.false_ne_true, hc.2, Bool.or_self,
      if_neg Bool.false_ne_true]
    cases text with
    | nil => rfl
    | cons next text =>
      rw [ih ⟨hcr.2, hlf.2⟩ (List.cons_ne_nil _ _), List.append_assoc, List.singleton_append]

/-- **Plain text has the same lines** for the publisher and the listener. -/
theorem splitlinesFrom_encode {data : Str} (hplain : PlainBreaks data) {line : Str} {afterCr : Bool} {d l : Bytes}
    (hd : data.encodeUtf8 = some d) (hl : line.encodeUtf8 = some l) (hend : data = [] → line ≠ []) :
    List.Forall₂ (fun s b => Str.encodeUtf8 s = some b) (splitlinesFrom data line afterCr)
      (splitSseLinesFrom d l afterCr) := by
  induction data generalizing line afterCr d l with
  | nil =>
    cases hd
    have hline : line.isEmpty = false := List.isEmpty_eq_false_iff.mpr (hend rfl)
    unfold splitlinesFrom splitSseLinesFrom
    rw [hline, if_neg Bool.false_ne_true]
    exact List.Forall₂.cons hl List.Forall₂.nil
  | cons c rest ih =>
    obtain ⟨head, tail, hhead, htail, rfl⟩ := Str.encodeUtf8_cons_eq_some.mp hd
    have hrest : PlainBreaks rest := by
      refine ⟨fun x hx => hplain.only x (List.mem_cons_of_mem _ hx), fun x hx => hplain.last x ?_⟩
      obtain ⟨y, ys, rfl⟩ := List.exists_cons_of_ne_nil (show rest ≠ [] by rintro rfl; cases hx)
      rw [List.getLast?_cons_cons]
      exact hx
    have hmore : isLineBoundary c = true → rest ≠ [] := by
      rintro hboundary rfl
      rw [hplain.last c rfl] at hboundary
      cases hboundary
    obtain ⟨-, rfl⟩ := Json.utf8Of_eq_some hhead
    by_cases hlf : c = codePoint LF
    · subst hlf
      have hboundary : isLineBoundary (codePoint LF) = true := rfl
      have hbytes : Json.utf8 (codePoint LF).val = [LF] := rfl
      rw [hbytes, List.singleton_append, splitlinesFrom, splitSseLinesFrom, hboundary, if_pos rfl]
      cases afterCr with
      | true =>
        exact ih hrest htail hl fun h => absurd h (hmore rfl)
      | false =>
        exact List.Forall₂.cons hl (ih hrest htail rfl fun h => absurd h (hmore rfl))
    by_cases hcr : c = codePoint CR
    · subst hcr
      have hboundary : isLineBoundary (codePoint CR) = true := rfl
      have hbytes : Json.utf8 (codePoint CR).val = [CR] := rfl
      rw [hbytes, List.singleton_append, splitlinesFrom, splitSseLinesFrom, hboundary, if_pos rfl]
      exact List.Forall₂.cons hl (ih hrest htail rfl fun h => absurd h (hmore rfl))
    · have hboundary : isLineBoundary c = false := by
        rw [Bool.eq_false_iff]
        intro hboundary
        rcases hplain.only c List.mem_cons_self hboundary with h | h
        · exact hcr h
        · exact hlf h
      have hval : (c.val == 0x0A) = false := beq_eq_false_iff_ne.mpr fun h => hlf (Fin.ext h)
      rw [splitlinesFrom, hval, Bool.false_and, if_neg Bool.false_ne_true, hboundary, if_neg Bool.false_ne_true,
        splitSseLinesFrom_append (noBreak_utf8 hcr hlf) (Json.utf8_ne_nil _)]
      refine ih hrest htail (Str.encodeUtf8_append hl (Str.encodeUtf8_cons_eq_some.mpr ⟨_, _, hhead, rfl, ?_⟩)) ?_
      · rw [List.append_nil]
      · intro _
        simp

/-- Lines joined by a newline, with two behind them, are lines that a newline ends and an empty one. -/
theorem encodeUtf8_lines {lines : List Str} {block : List Bytes}
    (hlines : List.Forall₂ (fun s b => Str.encodeUtf8 s = some b) lines block) (hne : lines ≠ []) :
    Str.encodeUtf8 ([newlineChar].intercalate lines ++ [newlineChar, newlineChar]) =
      some ((block.flatMap fun line => line ++ [LF]) ++ [LF]) := by
  induction hlines with
  | nil => exact absurd rfl hne
  | @cons line bytes lines block hline hrest ih =>
    cases hrest with
    | nil =>
      rw [List.intercalate_singleton, List.flatMap_singleton, List.append_assoc]
      exact Str.encodeUtf8_append hline rfl
    | @cons next bytes' lines block' hnext hrest =>
      rw [List.intercalate_cons_cons, List.flatMap_cons, List.append_assoc, List.append_assoc, List.append_assoc,
        List.append_assoc]
      refine Str.encodeUtf8_append hline (Str.encodeUtf8_append rfl ?_)
      exact ih (List.cons_ne_nil _ _)

theorem encodeUtf8_ascii (text : String) (hascii : ∀ b ∈ ascii text, b < 0x80) {s : Str} {b : Bytes}
    (hs : s.encodeUtf8 = some b) : Str.encodeUtf8 (Str.ofBytes (ascii text) ++ s) = some (ascii text ++ b) :=
  Str.encodeUtf8_append (Str.encodeUtf8_ofBytes hascii) hs

/-- **The publisher's frame** is one event with the same type and data, where the argument's breaks are plain. -/
theorem events_sseEvent {data : Str} {event : Option Str} {d e : Bytes} (hd : data.encodeUtf8 = some d)
    (he : (event.getD []).encodeUtf8 = some e) (htype : EventStream.NoBreak e) (hplain : PlainBreaks data)
    (eventId : Int) : ∃ frame, sseEvent data event eventId = some frame ∧
      EventStream.events frame = [⟨dispatchedType e, breaksAsLf d, rememberedId eventId⟩] := by
  have hid : List.Forall₂ (fun s b => Str.encodeUtf8 s = some b)
      (if eventId != NO_EVENT_ID then [Str.ofBytes (ascii "id: " ++ intText eventId)] else []) (idLines eventId) := by
    unfold idLines
    by_cases hno : eventId = NO_EVENT_ID
    · rw [if_pos hno, hno]
      exact List.Forall₂.nil
    · have hdigits : ∀ b ∈ intText eventId, b < 0x80 := by
        have hdecimal : ∀ n, ∀ b ∈ decimal n, b < 0x80 := fun n b hb =>
          forall_byte (P := fun b => 0x30 ≤ b ∧ b ≤ 0x39 → b < 0x80) (by decide) b (decimal_digits n b hb)
        intro b hb
        unfold intText at hb
        split at hb
        · rcases List.mem_cons.mp hb with rfl | hb
          · decide
          · exact hdecimal _ b hb
        · exact hdecimal _ b hb
      rw [if_pos (bne_iff_ne.mpr hno), if_neg hno, Str.ofBytes_append]
      exact List.Forall₂.cons (encodeUtf8_ascii "id: " (by decide) (Str.encodeUtf8_ofBytes hdigits)) List.Forall₂.nil
  obtain ⟨eventLines, hencoded, heventLines⟩ : ∃ eventLines,
      List.Forall₂ (fun s b => Str.encodeUtf8 s = some b)
        (match event with
          | none => []
          | some event => if event.isEmpty then [] else [Str.ofBytes (ascii "event: ") ++ event]) eventLines ∧
      (eventLines = [EventStream.fieldLine (EventStream.name "event") e] ∨ eventLines = [] ∧ e = []) := by
    cases event with
    | none =>
      cases he
      exact ⟨[], List.Forall₂.nil, Or.inr ⟨rfl, rfl⟩⟩
    | some event =>
      cases event with
      | nil =>
        cases he
        exact ⟨[], List.Forall₂.nil, Or.inr ⟨rfl, rfl⟩⟩
      | cons c event =>
        exact ⟨_, List.Forall₂.cons (encodeUtf8_ascii "event: " (by decide) he) List.Forall₂.nil, Or.inl rfl⟩
  have hparts : List.Forall₂ (fun s b => Str.encodeUtf8 s = some b)
      (if (splitlines data).isEmpty then [[]] else splitlines data) (splitSseLines d) := by
    cases data with
    | nil =>
      cases hd
      exact List.Forall₂.cons rfl List.Forall₂.nil
    | cons c rest =>
      have hlines : List.Forall₂ (fun s b => Str.encodeUtf8 s = some b) (splitlines (c :: rest)) (splitSseLines d) :=
        splitlinesFrom_encode hplain hd rfl (fun h => nomatch h)
      have hsome : (splitlines (c :: rest)).isEmpty = false := by
        rw [List.isEmpty_eq_false_iff]
        intro hnil
        rw [hnil] at hlines
        exact splitSseLines_ne_nil d (List.forall₂_nil_left_iff.mp hlines)
      rw [hsome, if_neg Bool.false_ne_true]
      exact hlines
  have hdata : List.Forall₂ (fun s b => Str.encodeUtf8 s = some b)
      ((if (splitlines data).isEmpty then [[]] else splitlines data).map fun line => Str.ofBytes (ascii "data: ") ++ line)
      ((splitSseLines d).map (EventStream.fieldLine (EventStream.name "data"))) := by
    rw [List.forall₂_map_left_iff, List.forall₂_map_right_iff]
    exact hparts.imp fun s b hs => encodeUtf8_ascii "data: " (by decide) hs
  have hblock := List.rel_append (List.rel_append hid hencoded) hdata
  refine ⟨_, encodeUtf8_lines hblock ?_, events_frame heventLines htype (splitSseLines_ne_nil d)
    (fun part hpart => noBreak_of_mem_splitSseLines hpart) |>.trans ?_⟩
  · intro hnil
    have hempty := (List.append_eq_nil_iff.mp hnil).2
    rw [List.map_eq_nil_iff] at hempty
    split at hempty
    · cases hempty
    · next hsome => exact hsome (List.isEmpty_iff.mpr hempty)
  · rw [intercalate_splitSseLines]

/-- A payload that was sent holds what it was made of. -/
theorem parameters_of_notifySql {channel data : Str} {event : Option Str} {statement : Statement}
    (hnotify : notifySql channel data event = .ok statement) :
    statement.parameters = [PG_NOTIFY_CHANNEL, notifyPayload channel data event] := by
  unfold notifySql at hnotify
  by_cases hlong : (notifyPayload channel data event).length > PG_NOTIFY_MAX_BYTES
  · rw [if_pos hlong] at hnotify
    cases hnotify
  · rw [if_neg hlong] at hnotify
    cases hnotify
    rfl

/-- What one publish means at both doors: the listener reads back the three strings, and the two frames are one event
each, of one type and with one data, the argument with its breaks as LF. -/
def SameAtBothDoors (channel data : Str) (event : Option Str) : Prop :=
  ∀ statement, notifySql channel data event = .ok statement → ∃ c e d,
    channel.encodeUtf8 = some c ∧ (event.getD []).encodeUtf8 = some e ∧ data.encodeUtf8 = some d ∧
      parseNotifyPayload (statement.parameters.getD 1 []) = some ⟨c, e, d⟩ ∧
        ∀ listenerId publisherId, ∃ frame heard read, sseEvent data event publisherId = some frame ∧
          EventStream.events (formatSseEventBytes listenerId e d) = [heard] ∧ EventStream.events frame = [read] ∧
            heard.type = read.type ∧ heard.data = read.data ∧ heard.data = breaksAsLf d

/-- **Both doors** publish one event. What the listener is sent it reads back, unless the channel is empty or
reserved; a type on one line makes its frame one event, and where the breaks of the data are plain the publisher's
frame is the same event. -/
theorem both_doors {channel data : Str} {event : Option Str} {statement : Statement}
    (hnotify : notifySql channel data event = .ok statement) {c e d : Bytes} (hc : channel.encodeUtf8 = some c)
    (he : (event.getD []).encodeUtf8 = some e) (hd : data.encodeUtf8 = some d) :
    (parseNotifyPayload (statement.parameters.getD 1 []) =
        if c.length == 0 || channelIsReserved c then none else some ⟨c, e, d⟩) ∧
      (EventStream.NoBreak e → ∀ listenerId publisherId : Int,
        EventStream.events (formatSseEventBytes listenerId e d) =
            [⟨dispatchedType e, breaksAsLf d, rememberedId listenerId⟩] ∧
          (PlainBreaks data → ∃ frame, sseEvent data event publisherId = some frame ∧
            EventStream.events frame = [⟨dispatchedType e, breaksAsLf d, rememberedId publisherId⟩])) := by
  refine ⟨?_, fun htype listenerId publisherId => ⟨events_formatSseEventBytes listenerId htype d, fun hplain =>
    events_sseEvent hd he htype hplain publisherId⟩⟩
  rw [parameters_of_notifySql hnotify]
  exact parseNotifyPayload_notifyPayload hc he hd

/-- A greeting of two lines. -/
theorem both_doors_greeting :
    (parseNotifyPayload (notifyPayload (Str.ofBytes (ascii "news")) (Str.ofBytes (ascii "a\r\nb"))
        (some (Str.ofBytes (ascii "greeting")))) = some ⟨ascii "news", ascii "greeting", ascii "a\r\nb"⟩) ∧
      ∃ frame, sseEvent (Str.ofBytes (ascii "a\r\nb")) (some (Str.ofBytes (ascii "greeting"))) 7 = some frame ∧
        EventStream.events frame = [⟨ascii "greeting", ascii "a\nb", ascii "7"⟩] := by
  have hboth := @both_doors (Str.ofBytes (ascii "news")) (Str.ofBytes (ascii "a\r\nb"))
    (some (Str.ofBytes (ascii "greeting"))) _ rfl _ _ _ rfl rfl rfl
  have hplain : PlainBreaks (Str.ofBytes (ascii "a\r\nb")) := by
    refine ⟨?_, ?_⟩
    · intro c hc
      obtain ⟨b, hb, rfl⟩ := List.mem_map.mp hc
      revert b
      decide
    · intro c hc
      cases hc
      rfl
  have htype : EventStream.NoBreak (ascii "greeting") := by
    unfold EventStream.NoBreak
    decide
  exact ⟨hboth.1, (hboth.2 htype 0 7).2 hplain⟩

/-- A statement for the empty channel is one the listener refuses. -/
theorem not_same_at_both_doors : ¬ ∀ channel data event, SameAtBothDoors channel data event := by
  intro hall
  obtain ⟨c, e, d, hc, he, hd, hparse, -⟩ := hall [] (Str.ofBytes (ascii "x")) none _ rfl
  have hread := @parseNotifyPayload_notifyPayload [] (Str.ofBytes (ascii "x")) none _ _ _ rfl rfl rfl
  have hsame : parseNotifyPayload (notifyPayload [] (Str.ofBytes (ascii "x")) none) = some ⟨c, e, d⟩ := hparse
  rw [hread] at hsame
  cases hsame

end MojoHttp
