import MojoHttp.Sse.Frame

/-!
# Datastar events on the wire (`m0-datastar`, `sse.mojo`)

* **`buildSse`**, **`Patch.frame`** — the text of a patch, refused where a value of one line holds a break.
* **`Patch.heard`** — what the call says: an event of its type, its arguments one to a line.
* **`stream_read`** — a client reads a stream of patches as exactly those events.
-/

namespace MojoHttp.Datastar

open BytesConstant EventStream

/-! ## The calls -/

/-- `split_data_lines`, which is `split_sse_lines` of the other package. -/
def splitDataLines (data : Bytes) : List Bytes := splitSseLines data

/-- `_refuse_line_break`. -/
def refuseLineBreak (field : String) (value : Bytes) : Except String Unit :=
  if CR ∈ value ∨ LF ∈ value then
    .error ("m0_datastar: the " ++ field ++ " carries a line break, which would end its SSE line")
  else .ok ()

def DEFAULT_SSE_RETRY_DURATION : Int := 1000

/-- `_build_sse`. -/
def buildSse (eventType : Bytes) (dataLines : List Bytes) (eventId : Bytes) (retryDuration : Int) :
    Except String Bytes := do
  refuseLineBreak "event id" eventId
  return ascii "event: " ++ eventType ++ [LF] ++
    (if eventId.length > 0 then ascii "id: " ++ eventId ++ [LF] else []) ++
    (if retryDuration ≠ -1 ∧ retryDuration ≠ DEFAULT_SSE_RETRY_DURATION then
      ascii "retry: " ++ intText retryDuration ++ [LF] else []) ++
    (dataLines.flatMap fun line => ascii "data: " ++ line ++ [LF]) ++ [LF]

/-- The arguments of `patch_elements`, but for the id and the retry. -/
structure Elements where
  elements : Bytes
  selector : Bytes
  mode : Bytes
  ns : Bytes
  useViewTransition : Bool
  viewTransitionSelector : Bytes
  deriving Repr, DecidableEq

/-- The datalines of `patch_elements`. -/
def Elements.dataLines (c : Elements) : List Bytes :=
  (if c.selector.length > 0 then [ascii "selector " ++ c.selector] else []) ++
    (if c.mode.length > 0 ∧ c.mode ≠ ascii "outer" then [ascii "mode " ++ c.mode] else []) ++
    (if c.useViewTransition then
      ascii "useViewTransition true" ::
        (if c.viewTransitionSelector.length > 0 then
          [ascii "viewTransitionSelector " ++ c.viewTransitionSelector] else [])
    else []) ++
    (if c.ns.length > 0 ∧ c.ns ≠ ascii "html" then [ascii "namespace " ++ c.ns] else []) ++
    (if c.elements.length > 0 then (splitDataLines c.elements).map (ascii "elements " ++ ·) else [])

/-- The datalines of `patch_signals`. -/
def signalsDataLines (signals : Bytes) (onlyIfMissing : Bool) : List Bytes :=
  (if onlyIfMissing then [ascii "onlyIfMissing true"] else []) ++
    (splitDataLines signals).map (ascii "signals " ++ ·)

inductive Call where
  | patchElements (c : Elements)
  | patchSignals (signals : Bytes) (onlyIfMissing : Bool)
  deriving Repr, DecidableEq

structure Patch where
  call : Call
  eventId : Bytes
  retryDuration : Int
  deriving Repr, DecidableEq

namespace Patch

def eventType (p : Patch) : Bytes :=
  match p.call with
  | .patchElements _ => ascii "datastar-patch-elements"
  | .patchSignals _ _ => ascii "datastar-patch-signals"

def dataLines (p : Patch) : List Bytes :=
  match p.call with
  | .patchElements c => c.dataLines
  | .patchSignals signals onlyIfMissing => signalsDataLines signals onlyIfMissing

/-- `patch_elements` and `patch_signals`. -/
def frame (p : Patch) : Except String Bytes :=
  let built := buildSse p.eventType p.dataLines p.eventId p.retryDuration
  match p.call with
  | .patchElements c => do
    refuseLineBreak "selector" c.selector
    refuseLineBreak "mode" c.mode
    refuseLineBreak "namespace" c.ns
    refuseLineBreak "view transition selector" c.viewTransitionSelector
    built
  | .patchSignals _ _ => built

/-- The id a client has behind the patch: an id with a NUL in it is none. -/
def seenId (prev : Bytes) (p : Patch) : Bytes := if p.eventId = [] ∨ 0 ∈ p.eventId then prev else p.eventId

/-- The event a client is to hear. A patch without an argument has no data, and no client hears of it. -/
def heard (prev : Bytes) (p : Patch) : List Event :=
  if p.dataLines = [] then [] else [⟨p.eventType, [LF].intercalate p.dataLines, seenId prev p⟩]

/-- The events of a stream of patches, and the id the client has behind it. -/
def heardAll : Bytes → List Patch → List Event × Bytes
  | prev, [] => ([], prev)
  | prev, p :: ps => (heard prev p ++ (heardAll (seenId prev p) ps).1, (heardAll (seenId prev p) ps).2)

end Patch

/-! ## No line of a patch is broken -/

theorem ok_of_bind {α β : Type} {x : Except String α} {f : α → Except String β} {b : β}
    (h : x >>= f = .ok b) : ∃ a, x = .ok a ∧ f a = .ok b := by
  cases x with
  | error e => cases h
  | ok a => exact ⟨a, rfl, h⟩

instance (line : Bytes) : Decidable (NoBreak line) := inferInstanceAs (Decidable (_ ∧ _))

/-- What is checked for a break, and what comes behind the check. -/
theorem refuse_then {field : String} {value : Bytes} {x : Except String Bytes} {text : Bytes}
    (h : (do refuseLineBreak field value; x) = .ok text) : NoBreak value ∧ x = .ok text := by
  obtain ⟨⟨⟩, hcheck, h⟩ := ok_of_bind h
  unfold refuseLineBreak at hcheck
  by_cases hbreak : CR ∈ value ∨ LF ∈ value
  · rw [if_pos hbreak] at hcheck
    cases hcheck
  · exact ⟨not_or.mp hbreak, h⟩

/-- What one `if` of a call adds, all of it on lines of its own. -/
theorem noBreak_ite {c : Prop} [Decidable c] {lines : List Bytes} (h : ∀ l ∈ lines, NoBreak l) :
    ∀ l ∈ (if c then lines else []), NoBreak l := by
  by_cases hc : c
  · rwa [if_pos hc]
  · rw [if_neg hc]
    exact fun l hl => absurd hl List.not_mem_nil

theorem ite_flatMap {c : Prop} [Decidable c] (line : Bytes) :
    ((if c then [line] else []).flatMap fun l => l ++ [LF]) = if c then line ++ [LF] else [] := by
  by_cases hc : c
  · rw [if_pos hc, if_pos hc, List.flatMap_singleton]
  · rw [if_neg hc, if_neg hc, List.flatMap_nil]

theorem noBreak_map {label : Bytes} (hlabel : NoBreak label) (data : Bytes) :
    ∀ l ∈ (splitDataLines data).map (label ++ ·), NoBreak l :=
  List.forall_mem_map.mpr fun _ hpart => hlabel.append (noBreak_of_mem_splitSseLines hpart)

/-- A label and a value on one line. -/
theorem noBreak_arg {label value : Bytes} (hlabel : NoBreak label)
    (hvalue : NoBreak value) : ∀ l ∈ [label ++ value], NoBreak l :=
  List.forall_mem_singleton.mpr (hlabel.append hvalue)

theorem Elements.noBreak_dataLines {c : Elements} (hselector : NoBreak c.selector) (hmode : NoBreak c.mode)
    (hns : NoBreak c.ns) (htransition : NoBreak c.viewTransitionSelector) : ∀ l ∈ c.dataLines, NoBreak l := by
  have htransitions : ∀ l ∈ ascii "useViewTransition true" ::
      (if c.viewTransitionSelector.length > 0 then
        [ascii "viewTransitionSelector " ++ c.viewTransitionSelector] else []), NoBreak l := by
    rw [List.forall_mem_cons]
    exact ⟨by decide, noBreak_ite (noBreak_arg (by decide) htransition)⟩
  unfold dataLines
  simp only [List.forall_mem_append]
  exact ⟨⟨⟨⟨noBreak_ite (noBreak_arg (by decide) hselector),
    noBreak_ite (noBreak_arg (by decide) hmode)⟩, noBreak_ite htransitions⟩,
    noBreak_ite (noBreak_arg (by decide) hns)⟩,
    noBreak_ite (noBreak_map (by decide) c.elements)⟩

namespace Patch

/-- The lines of a patch, the empty one left out. -/
def lines (p : Patch) : List Bytes :=
  EventStream.fieldLine (name "event") p.eventType ::
    ((if p.eventId.length > 0 then [EventStream.fieldLine (name "id") p.eventId] else []) ++
      (if p.retryDuration ≠ -1 ∧ p.retryDuration ≠ DEFAULT_SSE_RETRY_DURATION then
        [EventStream.fieldLine (name "retry") (intText p.retryDuration)] else []) ++
      p.dataLines.map (EventStream.fieldLine (name "data")))

theorem eventType_spec (p : Patch) : p.eventType ≠ [] ∧ NoBreak p.eventType := by
  have hnames : ∀ t ∈ [ascii "datastar-patch-elements", ascii "datastar-patch-signals"],
      t ≠ [] ∧ NoBreak t := by decide
  unfold eventType
  cases p.call with
  | patchElements c => exact hnames _ List.mem_cons_self
  | patchSignals signals onlyIfMissing => exact hnames _ (List.mem_cons_of_mem _ List.mem_cons_self)

/-- A patch that is not refused: its text, and no line of it is broken. -/
theorem frame_ok {p : Patch} {text : Bytes} (h : p.frame = .ok text) :
    text = (p.lines.flatMap fun line => line ++ [LF]) ++ [LF] ∧ ∀ line ∈ p.lines, NoBreak line := by
  have hbuilt : buildSse p.eventType p.dataLines p.eventId p.retryDuration = .ok text ∧
      ∀ l ∈ p.dataLines, NoBreak l := by
    unfold frame at h
    cases hcall : p.call with
    | patchElements c =>
      rw [hcall] at h
      obtain ⟨hselector, h⟩ := refuse_then h
      obtain ⟨hmode, h⟩ := refuse_then h
      obtain ⟨hns, h⟩ := refuse_then h
      obtain ⟨htransition, h⟩ := refuse_then h
      refine ⟨h, ?_⟩
      unfold dataLines
      rw [hcall]
      exact Elements.noBreak_dataLines hselector hmode hns htransition
    | patchSignals signals onlyIfMissing =>
      rw [hcall] at h
      refine ⟨h, ?_⟩
      unfold dataLines signalsDataLines
      rw [hcall]
      simp only [List.forall_mem_append]
      exact ⟨noBreak_ite (List.forall_mem_singleton.mpr (by decide)),
        noBreak_map (by decide) signals⟩
  obtain ⟨hbuild, hdata⟩ := hbuilt
  obtain ⟨hid, hbuild⟩ := refuse_then hbuild
  constructor
  · rw [← Except.ok.inj hbuild, lines, List.flatMap_cons, List.flatMap_append, List.flatMap_append,
      List.flatMap_map, ite_flatMap, ite_flatMap]
    simp only [List.append_assoc]
    rfl
  · unfold lines
    rw [List.forall_mem_cons]
    simp only [List.forall_mem_append]
    exact ⟨noBreak_fieldLine (by decide) p.eventType_spec.2,
      ⟨noBreak_ite (List.forall_mem_singleton.mpr (noBreak_fieldLine (by decide) hid)),
        noBreak_ite (List.forall_mem_singleton.mpr (noBreak_fieldLine (by decide) (noBreak_intText _).1))⟩,
      List.forall_mem_map.mpr fun line hline => noBreak_fieldLine (by decide) (hdata line hline)⟩

/-- The fields in front of the data put the type and the id into the buffers, and the retry nothing. -/
theorem eventsFrom_lines (p : Patch) (prev : Bytes) (rest : List Bytes) :
    eventsFrom ⟨[], [], prev⟩ (p.lines ++ [] :: rest) =
      heard prev p ++ eventsFrom ⟨[], [], seenId prev p⟩ rest := by
  have hevent : ∀ ls, eventsFrom ⟨[], [], prev⟩
      (EventStream.fieldLine (name "event") p.eventType :: ls) =
        eventsFrom ⟨[], p.eventType, prev⟩ ls := by
    intro ls
    rw [eventsFrom_fieldLine (by decide) (by decide)]
    rfl
  have hid : ∀ ls, eventsFrom ⟨[], p.eventType, prev⟩
      ((if p.eventId.length > 0 then [EventStream.fieldLine (name "id") p.eventId] else []) ++ ls) =
        eventsFrom ⟨[], p.eventType, seenId prev p⟩ ls := by
    intro ls
    by_cases hempty : p.eventId = []
    · rw [seenId, if_pos (Or.inl hempty), hempty]
      rfl
    · rw [if_pos (List.length_pos_iff.mpr hempty), List.singleton_append,
        eventsFrom_fieldLine (by decide) (by decide)]
      unfold Buffers.take seenId
      rw [if_neg (show name "id" ≠ name "event" by decide),
        if_neg (show name "id" ≠ name "data" by decide), if_pos rfl]
      by_cases hnul : (0 : UInt8) ∈ p.eventId
      · rw [if_pos hnul, if_pos (Or.inr hnul)]
      · rw [if_neg hnul, if_neg (not_or.mpr ⟨hempty, hnul⟩)]
  have hretry : ∀ (c : Prop) [Decidable c] (b : Buffers) ls, eventsFrom b
      ((if c then [EventStream.fieldLine (name "retry") (intText p.retryDuration)] else []) ++ ls) =
        eventsFrom b ls := by
    intro c _ b ls
    by_cases hc : c
    · rw [if_pos hc, List.singleton_append, eventsFrom_fieldLine (by decide) (by decide)]
      rfl
    · rw [if_neg hc, List.nil_append]
  unfold lines heard
  rw [List.cons_append, hevent, List.append_assoc, List.append_assoc, hid, hretry]
  by_cases hnone : p.dataLines = []
  · -- no data, no event
    rw [if_pos hnone, hnone]
    rfl
  · rw [if_neg hnone, eventsFrom_block hnone rfl]
    dsimp only
    rw [if_neg p.eventType_spec.1]
    rfl

end Patch

open Patch in
/-- **A client reads a stream of patches as the events of its calls**, each once, in order and whole, and what
stands behind them as if they were not there. -/
theorem stream_read (ps : List Patch) (frames : List Bytes) (h : ps.mapM frame = .ok frames)
    (prev rest : Bytes) :
    eventsFrom ⟨[], [], prev⟩ (EventStream.lines (frames.flatten ++ rest)) =
      (heardAll prev ps).1 ++
        eventsFrom ⟨[], [], (heardAll prev ps).2⟩ (EventStream.lines rest) := by
  induction ps generalizing prev frames with
  | nil =>
    obtain rfl : frames = [] := (Except.ok.inj h).symm
    rfl
  | cons p ps ih =>
    rw [List.mapM_cons] at h
    obtain ⟨text, hframe, h⟩ := ok_of_bind h
    obtain ⟨more, hmore, h⟩ := ok_of_bind h
    obtain rfl : frames = text :: more := (Except.ok.inj h).symm
    obtain ⟨htext, hlines⟩ := frame_ok hframe
    have hread : EventStream.lines (text ++ (more.flatten ++ rest)) =
        p.lines ++ [] :: EventStream.lines (more.flatten ++ rest) := by
      rw [htext, List.append_assoc, EventStream.lines_unlines hlines]
      rfl
    rw [List.flatten_cons, List.append_assoc, hread, eventsFrom_lines, ih more hmore, heardAll,
      List.append_assoc]

/-- The signals `1` with the id `7`. -/
def onePatch : Patch := ⟨.patchSignals [0x31] false, [0x37], -1⟩

theorem stream_read_onePatch : ∃ frames, [onePatch].mapM Patch.frame = .ok frames ∧
    eventsFrom ⟨[], [], []⟩ (EventStream.lines (frames.flatten ++ [])) =
      Patch.heard [] onePatch ++ eventsFrom ⟨[], [], [0x37]⟩ (EventStream.lines []) :=
  ⟨_, rfl, stream_read [onePatch] _ rfl [] []⟩

end MojoHttp.Datastar
