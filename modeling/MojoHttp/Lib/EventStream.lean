import MojoHttp.Lib.CrlfText

/-!
# The event stream format

What a client reads in a stream of server-sent events, by the WHATWG rules for interpreting one.

* **`lines`** — the lines of the stream, each ended by CRLF, LF or CR; what stands behind the last
  end is no line yet.
* **`field`** — a line's field name and value: the name runs to the first colon, and one space behind
  the colon is not part of the value.
* **`events`** — the events dispatched, by the buffers kept from line to line.
* **`events_block`** — a block of fields with data and an empty line behind it is one event.
-/

namespace EventStream

open CrlfText

abbrev colon : UInt8 := 0x3A
abbrev space : UInt8 := 0x20

/-- The bytes of an ASCII name. -/
def name (s : String) : List UInt8 := s.toList.map fun c => UInt8.ofNat c.toNat

/-! ## Lines -/

/-- `line` is what was read of the line so far, and `afterCr` that a CR ended the one before, whose LF is part
of that end. -/
def linesFrom : List UInt8 → (line : List UInt8) → (afterCr : Bool) → List (List UInt8)
  | [], _, _ => []
  | c :: rest, line, afterCr =>
    if c = lf ∧ afterCr = true then linesFrom rest line false
    else if c = cr ∨ c = lf then line :: linesFrom rest [] (c == cr)
    else linesFrom rest (line ++ [c]) false

def lines (stream : List UInt8) : List (List UInt8) := linesFrom stream [] false

/-- No CR and no LF. -/
def NoBreak (line : List UInt8) : Prop := cr ∉ line ∧ lf ∉ line

theorem NoBreak.append {a b : List UInt8} (ha : NoBreak a) (hb : NoBreak b) : NoBreak (a ++ b) := by
  refine ⟨fun hin => ?_, fun hin => ?_⟩
  · rcases List.mem_append.mp hin with hin | hin
    · exact ha.1 hin
    · exact hb.1 hin
  · rcases List.mem_append.mp hin with hin | hin
    · exact ha.2 hin
    · exact hb.2 hin

theorem linesFrom_append {text : List UInt8} (htext : NoBreak text) (rest line : List UInt8) :
    linesFrom (text ++ lf :: rest) line false = (line ++ text) :: lines rest := by
  induction text generalizing line with
  | nil =>
    rw [List.nil_append, List.append_nil]
    rfl
  | cons c text ih =>
    obtain ⟨hcr, hlf⟩ := htext
    rw [List.mem_cons, not_or] at hcr hlf
    rw [List.cons_append]
    unfold linesFrom
    rw [if_neg fun h => hlf.1 h.1.symm, if_neg (by
      rintro (h | h)
      · exact hcr.1 h.symm
      · exact hlf.1 h.symm), ih ⟨hcr.2, hlf.2⟩, List.append_assoc, List.singleton_append]

/-- **A line**, and the stream behind it. -/
theorem lines_line {line : List UInt8} (hline : NoBreak line) (rest : List UInt8) :
    lines (line ++ lf :: rest) = line :: lines rest := linesFrom_append hline rest []

/-- The lines a stream was made of. -/
theorem lines_unlines {block : List (List UInt8)} (hblock : ∀ line ∈ block, NoBreak line) (rest : List UInt8) :
    lines ((block.flatMap fun line => line ++ [lf]) ++ rest) = block ++ lines rest := by
  induction block with
  | nil => rfl
  | cons line block ih =>
    rw [List.flatMap_cons, List.append_assoc, List.append_assoc, List.singleton_append,
      lines_line (hblock line List.mem_cons_self), ih fun l hl => hblock l (List.mem_cons_of_mem _ hl)]
    rfl

/-! ## Fields and events -/

/-- A line that is no comment, as a field. -/
def field (line : List UInt8) : List UInt8 × List UInt8 :=
  match line.dropWhile (· != colon) with
  | [] => (line, [])
  | _ :: value => (line.takeWhile (· != colon), if value.head? = some space then value.tail else value)

structure Event where
  type : List UInt8
  data : List UInt8
  lastEventId : List UInt8
  deriving Repr, DecidableEq

/-- The data buffer, the event type buffer and the last event id buffer. -/
structure Buffers where
  data : List UInt8
  eventType : List UInt8
  lastEventId : List UInt8
  deriving Repr, DecidableEq

namespace Buffers

/-- What a field does; one of no known name does nothing. -/
def take (b : Buffers) (field : List UInt8 × List UInt8) : Buffers :=
  if field.1 = name "event" then { b with eventType := field.2 }
  else if field.1 = name "data" then { b with data := b.data ++ field.2 ++ [lf] }
  else if field.1 = name "id" then if 0 ∈ field.2 then b else { b with lastEventId := field.2 }
  else b

/-- An empty line: the event the buffers hold, none where they hold no data. -/
def dispatch (b : Buffers) : Option Event :=
  if b.data = [] then none
  else some ⟨if b.eventType = [] then name "message" else b.eventType, b.data.dropLast, b.lastEventId⟩

/-- The buffers behind an empty line. -/
def cleared (b : Buffers) : Buffers := ⟨[], [], b.lastEventId⟩

end Buffers

/-- The events of a stream's lines. -/
def eventsFrom : Buffers → List (List UInt8) → List Event
  | _, [] => []
  | b, line :: rest =>
    if line = [] then b.dispatch.toList ++ eventsFrom b.cleared rest
    else if line.head? = some colon then eventsFrom b rest
    else eventsFrom (b.take (field line)) rest

def events (stream : List UInt8) : List Event := eventsFrom ⟨[], [], []⟩ (lines stream)

/-- A field written as its name, a colon, a space and its value. -/
def fieldLine (name value : List UInt8) : List UInt8 := name ++ colon :: space :: value

theorem field_fieldLine {name : List UInt8} (hname : colon ∉ name) (value : List UInt8) :
    field (fieldLine name value) = (name, value) := by
  have hall : ∀ b ∈ name, (b != colon) = true := by
    intro b hb
    rw [bne_iff_ne]
    rintro rfl
    exact hname hb
  unfold field fieldLine
  rw [List.dropWhile_append_of_pos hall, List.takeWhile_append_of_pos hall]
  simp

/-- A field's line is neither empty nor a comment. -/
theorem eventsFrom_fieldLine {name : List UInt8} (hname : colon ∉ name) (hne : name ≠ []) (b : Buffers)
    (value : List UInt8) (rest : List (List UInt8)) :
    eventsFrom b (fieldLine name value :: rest) = eventsFrom (b.take (name, value)) rest := by
  obtain ⟨c, cs, rfl⟩ := List.exists_cons_of_ne_nil hne
  have hc : c ≠ colon := fun h => hname (h ▸ List.mem_cons_self)
  have hfield := field_fieldLine hname value
  have hnonempty : fieldLine (c :: cs) value ≠ [] := List.cons_ne_nil _ _
  have hhead : (fieldLine (c :: cs) value).head? ≠ some colon := fun h => hc (Option.some.inj h)
  rw [eventsFrom, if_neg hnonempty, if_neg hhead, hfield]

/-- Fields of data, one behind the other. -/
theorem eventsFrom_data (values : List (List UInt8)) (b : Buffers) (rest : List (List UInt8)) :
    eventsFrom b ((values.map (fieldLine (name "data"))) ++ rest) =
      eventsFrom { b with data := b.data ++ values.flatMap fun v => v ++ [lf] } rest := by
  induction values generalizing b with
  | nil => simp
  | cons value values ih =>
    rw [List.map_cons, List.cons_append, eventsFrom_fieldLine (by decide) (by decide), ih]
    have htake : b.take (name "data", value) = { b with data := b.data ++ value ++ [lf] } := by
      unfold Buffers.take
      rw [if_neg (show name "data" ≠ name "event" by decide), if_pos rfl]
    rw [htake, List.flatMap_cons]
    simp

theorem dropLast_unlines {values : List (List UInt8)} (hne : values ≠ []) :
    (values.flatMap fun v => v ++ [lf]).dropLast = [lf].intercalate values := by
  have hsnoc : (values.flatMap fun v => v ++ [lf]) = [lf].intercalate values ++ [lf] := by
    induction values with
    | nil => exact absurd rfl hne
    | cons value values ih =>
      cases values with
      | nil => simp
      | cons next values =>
        rw [List.flatMap_cons, ih (List.cons_ne_nil _ _), List.intercalate_cons_cons]
        simp
  rw [hsnoc, List.dropLast_concat]

/-- **A block of data and an empty line** is one event, its data the values with one LF between them; what stands
behind it is read with empty buffers. -/
theorem eventsFrom_block {values : List (List UInt8)} (hne : values ≠ []) {b : Buffers} (hdata : b.data = [])
    (rest : List (List UInt8)) :
    eventsFrom b ((values.map (fieldLine (name "data"))) ++ [] :: rest) =
      ⟨if b.eventType = [] then name "message" else b.eventType, [lf].intercalate values, b.lastEventId⟩ ::
        eventsFrom b.cleared rest := by
  have hfull : (values.flatMap fun v => v ++ [lf]) ≠ [] := by
    obtain ⟨value, values, rfl⟩ := List.exists_cons_of_ne_nil hne
    rw [List.flatMap_cons]
    simp
  rw [eventsFrom_data, hdata, List.nil_append]
  rw [eventsFrom, if_pos rfl]
  unfold Buffers.dispatch
  dsimp only
  rw [if_neg hfull, dropLast_unlines hne]
  rfl

theorem events_block {values : List (List UInt8)} (hne : values ≠ []) {b : Buffers} (hdata : b.data = []) :
    eventsFrom b ((values.map (fieldLine (name "data"))) ++ [[]]) =
      [⟨if b.eventType = [] then name "message" else b.eventType, [lf].intercalate values, b.lastEventId⟩] :=
  eventsFrom_block hne hdata []

/-! ## No event holds a break in its type -/

theorem noBreak_of_mem_linesFrom {stream line : List UInt8} {afterCr : Bool} (hline : NoBreak line) :
    ∀ l ∈ linesFrom stream line afterCr, NoBreak l := by
  induction stream generalizing line afterCr with
  | nil => exact List.forall_mem_nil _
  | cons c rest ih =>
    unfold linesFrom
    split
    · exact ih hline
    · split
      · rw [List.forall_mem_cons]
        exact ⟨hline, ih ⟨List.not_mem_nil, List.not_mem_nil⟩⟩
      · next hbreak =>
        rw [not_or] at hbreak
        apply ih
        apply hline.append
        rw [NoBreak, List.mem_singleton, List.mem_singleton]
        exact ⟨Ne.symm hbreak.1, Ne.symm hbreak.2⟩

theorem noBreak_of_mem_lines (stream : List UInt8) : ∀ l ∈ lines stream, NoBreak l :=
  noBreak_of_mem_linesFrom ⟨List.not_mem_nil, List.not_mem_nil⟩

theorem NoBreak.subset {a b : List UInt8} (hb : NoBreak b) (h : a ⊆ b) : NoBreak a :=
  ⟨fun hin => hb.1 (h hin), fun hin => hb.2 (h hin)⟩

/-- A field's value is part of its line. -/
theorem field_value_subset (line : List UInt8) : (field line).2 ⊆ line := by
  unfold field
  cases hdrop : line.dropWhile (· != colon) with
  | nil => exact List.nil_subset _
  | cons c value =>
    have hvalue : value ⊆ line := by
      apply List.Subset.trans (List.subset_cons_self c value)
      rw [← hdrop]
      exact (List.dropWhile_sublist _).subset
    dsimp only
    split
    · exact List.Subset.trans (List.tail_subset value) hvalue
    · exact hvalue

theorem Buffers.take_eventType (b : Buffers) {line : List UInt8} (hline : NoBreak line) (hb : NoBreak b.eventType) :
    NoBreak (b.take (field line)).eventType := by
  unfold Buffers.take
  split
  · exact hline.subset (field_value_subset line)
  · split
    · exact hb
    · split
      · split
        · exact hb
        · exact hb
      · exact hb

/-- **The type of an event** is part of one line. -/
theorem noBreak_type_of_mem_eventsFrom {b : Buffers} {block : List (List UInt8)} (hb : NoBreak b.eventType)
    (hblock : ∀ line ∈ block, NoBreak line) : ∀ e ∈ eventsFrom b block, NoBreak e.type := by
  induction block generalizing b with
  | nil => exact List.forall_mem_nil _
  | cons line block ih =>
    obtain ⟨hline, hrest⟩ := List.forall_mem_cons.mp hblock
    unfold eventsFrom
    split
    · intro e he
      rcases List.mem_append.mp he with he | he
      · -- the event dispatched has the type of the buffer, or the default one
        unfold Buffers.dispatch at he
        split at he
        · cases he
        · rw [Option.toList_some, List.mem_singleton] at he
          rw [he]
          dsimp only
          split
          · unfold NoBreak
            decide
          · exact hb
      · exact ih ⟨List.not_mem_nil, List.not_mem_nil⟩ hrest e he
    · split
      · exact ih hb hrest
      · exact ih (b.take_eventType hline hb) hrest

end EventStream
