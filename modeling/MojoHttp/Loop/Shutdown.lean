import MojoHttp.Framing
import MojoHttp.Lib.Execution
import Mathlib.Logic.Function.Basic

/-!
# What a shutdown closes (`loop/shutdown.mojo`)

A connection that reads headers is between requests unless a head has arrived whole. The drain's own
scan decides that, apart from the framer, and errs toward keeping a connection.

A slot is followed through the transitions the loop makes on it: who takes it, which state it is in,
whether its request is out, and what its buffer holds. What a read leaves in the buffer is anything,
and when an event comes is open; each transition is refused where the code's own checks refuse it.

* **`holdsARequest_iff`** — what the scan answers.
* **`holdsAHead_of_request`** — a request the framer takes has arrived whole.
* **`Slot.Ok.step`** — a request that is out is one being processed, on every run.
* **`drain_spares_requests`** — what a drain leaves.
-/

namespace MojoHttp.Drain

open ByteReader BytesConstant CrlfText

/-! ## The drain's scan -/

/-- A head's empty line, CR LF CR LF or a bare LF LF. -/
def endsAHead : Bytes → Bool
  | 10 :: 10 :: _ => true
  | 10 :: 13 :: 10 :: _ => true
  | _ :: rest => endsAHead rest
  | [] => false

def isLineByte (b : UInt8) : Bool := b == 13 || b == 10

/-- `_holds_a_request`. -/
def holdsARequest (buf : Bytes) (start : Nat) : Bool :=
  endsAHead ((buf.drop start).dropWhile isLineByte)

/-- A head's empty line: a line feed, and then another or its CRLF. -/
def EndsLine (ending : Bytes) : Prop := ending = [LF, LF] ∨ ending = [LF, CR, LF]

/-- The bytes hold a head whole: behind the empty lines before it, text up to an empty line. -/
def HoldsAHead (bytes : Bytes) : Prop :=
  ∃ lead first text ending rest, bytes = lead ++ (first :: text ++ ending ++ rest) ∧
    (∀ b ∈ lead, isLineByte b = true) ∧ isLineByte first = false ∧ EndsLine ending

theorem endsAHead_cons (b : UInt8) (bytes : Bytes) (h : endsAHead bytes = true) :
    endsAHead (b :: bytes) = true := by
  unfold endsAHead
  split
  · rfl
  · rfl
  · next heq =>
    cases heq
    exact h
  · next heq => cases heq

theorem endsAHead_append (text : Bytes) {bytes : Bytes} (h : endsAHead bytes = true) :
    endsAHead (text ++ bytes) = true := by
  induction text with
  | nil => exact h
  | cons b text ih => exact endsAHead_cons b _ ih

/-- **The scan for an empty line.** -/
theorem endsAHead_iff {bytes : Bytes} :
    endsAHead bytes = true ↔ ∃ text ending rest, bytes = text ++ ending ++ rest ∧ EndsLine ending := by
  constructor
  · fun_induction endsAHead bytes with
    | case1 rest => exact fun _ => ⟨[], [LF, LF], rest, rfl, .inl rfl⟩
    | case2 rest => exact fun _ => ⟨[], [LF, CR, LF], rest, rfl, .inr rfl⟩
    | case3 b bytes _ _ ih =>
      intro h
      obtain ⟨text, ending, rest, heq, hends⟩ := ih h
      exact ⟨b :: text, ending, rest, by rw [heq]; rfl, hends⟩
    | case4 => exact fun h => Bool.noConfusion h
  · intro h
    obtain ⟨text, ending, rest, rfl, hends⟩ := h
    rw [List.append_assoc]
    refine endsAHead_append text ?_
    rcases hends with rfl | rfl
    · rfl
    · rfl

/-- **`_holds_a_request`** answers whether a head has arrived whole. -/
theorem holdsARequest_iff {buf : Bytes} {start : Nat} :
    holdsARequest buf start = true ↔ HoldsAHead (buf.drop start) := by
  unfold holdsARequest
  rw [endsAHead_iff]
  generalize buf.drop start = bytes
  have hsplit := List.takeWhile_append_dropWhile (p := isLineByte) (l := bytes)
  constructor
  · intro h
    obtain ⟨text, ending, rest, heq, hends⟩ := h
    have hfirst : ∀ first tail, bytes.dropWhile isLineByte = first :: tail → isLineByte first = false := by
      intro first tail hcons
      have hhead := List.head?_dropWhile_not isLineByte bytes
      rw [hcons] at hhead
      simpa using hhead
    have hlead : ∀ b ∈ bytes.takeWhile isLineByte, isLineByte b = true :=
      fun b hb => List.mem_takeWhile_imp hb
    cases text with
    | nil =>
      -- an ending begins with a line feed, which the scan has skipped
      rcases hends with rfl | rfl
      · exact absurd (hfirst LF _ heq) (by decide)
      · exact absurd (hfirst LF _ heq) (by decide)
    | cons first text =>
      refine ⟨bytes.takeWhile isLineByte, first, text, ending, rest, ?_, hlead, ?_, hends⟩
      · conv_lhs => rw [← hsplit, heq]
      · exact hfirst first _ heq
  · intro h
    obtain ⟨lead, first, text, ending, rest, rfl, hlead, hfirst, hends⟩ := h
    refine ⟨first :: text, ending, rest, ?_, hends⟩
    rw [List.dropWhile_append_of_pos hlead, List.cons_append, List.cons_append,
      List.dropWhile_cons_of_neg (by simp [hfirst])]

/-! ## A request framed -/

theorem decideHead_request {w : IndexWords} {limits : HeadLimits} {bytes : Bytes} {headEnd : Nat}
    {head : Option ParsedRequestHeaders}
    (h : (decideHead w limits bytes headEnd head).1.outcome = .request) :
    ∃ p, parseRequestHeaders w bytes = .ok p ∧ p.bytesConsumed = headEnd := by
  unfold decideHead at h
  split at h
  · cases h
  split at h
  · cases h
  · cases h
  next p hp =>
  split at h
  · cases h
  next hends => exact ⟨p, hp, not_not.mp hends⟩

/-- A text that is not all line ends has a first byte. -/
theorem exists_first {text : Bytes} {c : UInt8} (hmem : c ∈ text) (hc : isLineByte c = false) :
    ∃ lead first rest, text = lead ++ first :: rest ∧ (∀ b ∈ lead, isLineByte b = true) ∧
      isLineByte first = false := by
  induction text with
  | nil => cases hmem
  | cons b text ih =>
    cases hb : isLineByte b with
    | false => exact ⟨[], b, text, rfl, fun _ hnot => absurd hnot List.not_mem_nil, hb⟩
    | true =>
      have hrest : c ∈ text := by
        rcases List.mem_cons.mp hmem with rfl | hmem
        · rw [hb] at hc
          exact Bool.noConfusion hc
        · exact hmem
      obtain ⟨lead, first, rest, rfl, hlead, hfirst⟩ := ih hrest
      refine ⟨b :: lead, first, rest, rfl, fun b' hb' => ?_, hfirst⟩
      rcases List.mem_cons.mp hb' with rfl | hb'
      · exact hb
      · exact hlead b' hb'

theorem isLineByte_of_isTokenChar : ∀ b : UInt8, isTokenChar b = true → isLineByte b = false :=
  forall_byte (P := fun b => isTokenChar b = true → isLineByte b = false) (by decide)

/-- **A request the framer takes** is a head that has arrived whole, wherever its scan began. -/
theorem holdsAHead_of_request {w : IndexWords} {limits : HeadLimits} {buffer : Bytes} {scanned : Nat}
    {head : Option ParsedRequestHeaders}
    (h : (frameRequestHead w limits buffer scanned head).1.outcome = .request) : HoldsAHead buffer := by
  unfold frameRequestHead at h
  split at h
  · split at h
    · cases h
    · cases h
  next headEnd _ =>
  obtain ⟨p, hp, hends⟩ := decideHead_request h
  obtain ⟨request, hrequest, hconsumed⟩ := parseRequestHeaders_head hp
  obtain ⟨⟨text, heats, -⟩, ⟨hnamed, htoken⟩, -, -, -⟩ := httpParseRequestHeaders_ok hrequest
  -- the parser stopped where the search did: its text is all there is
  have hshort : (buffer.take headEnd).drop request.consumed = [] := by
    rw [← hconsumed, hends]
    exact List.drop_eq_nil_of_le (by rw [List.length_take]; omega)
  have htext : buffer.take headEnd = text ++ (crlf ++ crlf) := by
    have hrest := heats.rest
    simp only [ByteReader.rest, List.drop_zero] at hrest
    rwa [hshort, List.append_nil] at hrest
  -- and the method is in it
  obtain ⟨c, method, hmethod⟩ := List.exists_cons_of_ne_nil hnamed
  have hcmem : c ∈ request.method := by
    rw [hmethod]
    exact List.mem_cons_self
  have hc := isLineByte_of_isTokenChar c (htoken c hcmem)
  have hmem : c ∈ text := by
    have hall := method_mem hrequest c hcmem
    rw [htext] at hall
    rcases List.mem_append.mp hall with hmem | hmem
    · exact hmem
    · have hline : ∀ b ∈ crlf ++ crlf, isLineByte b = true := by decide
      rw [hline c hmem] at hc
      exact Bool.noConfusion hc
  obtain ⟨lead, first, rest, rfl, hlead, hfirst⟩ := exists_first hmem hc
  refine ⟨lead, first, rest ++ [CR], [LF, CR, LF], buffer.drop headEnd, ?_, hlead, hfirst, .inr rfl⟩
  calc buffer = buffer.take headEnd ++ buffer.drop headEnd := (List.take_append_drop ..).symm
    _ = _ := by
      rw [htext]
      simp [crlf]

/-! ## A slot's transitions -/

/-- `ConnectionState`. -/
inductive ConnectionState where
  | readingHeaders
  | readingBody
  | processing
  | responding
  | streamingSse
  | streamingWs
  | lingering
  deriving Repr, DecidableEq

/-- What the transitions, and a drain, read of a slot. -/
structure Slot where
  /-- `slot_fds[s] != UNUSED`. -/
  attached : Bool
  offloaded : Bool
  sse : Bool
  ws : Bool
  state : ConnectionState
  recvBuffer : Bytes
  headStart : Nat
  requestEnd : Nat
  deriving Repr, DecidableEq

namespace Slot

def unused : Slot := ⟨false, false, false, false, .readingHeaders, [], 0, 0⟩

/-- The slot's connection is a stream. -/
def Streams (x : Slot) : Prop := x.sse = true ∨ x.ws = true

instance (x : Slot) : Decidable x.Streams := inferInstanceAs (Decidable (_ ∨ _))

/-- What the slot holds of the request it reads. -/
def held (x : Slot) : Bytes := x.recvBuffer.drop x.headStart

/-- `prepare_for_new_request`. -/
def prepareForNewRequest (x : Slot) (keepPipelined : Bool) : Slot :=
  if keepPipelined ∧ x.requestEnd > 0 ∧ x.requestEnd < x.recvBuffer.length then
    { x with headStart := x.requestEnd, state := .readingHeaders, requestEnd := 0 }
  else { x with recvBuffer := [], headStart := 0, state := .readingHeaders, requestEnd := 0 }

/-- `_close_slot`. -/
def close (x : Slot) : Slot :=
  { x with attached := false, sse := false, ws := false }.prepareForNewRequest false

end Slot

/-- What the loop does to one slot. -/
inductive Event where
  /-- The accept. -/
  | admits
  /-- The buffer after a read, or after its chunks have been decoded. -/
  | reads (recvBuffer : Bytes) (requestEnd : Nat)
  /-- `_frame_buffered`, a body owed. -/
  | framesBody
  /-- `_body_complete`. -/
  | bodyCompletes
  /-- `_reject_and_linger`, a linger allowed. -/
  | rejects
  /-- `_process_request`, its job taken. -/
  | goesOut
  /-- `_complete_one` and `_run_inline`. -/
  | comesBack
  /-- `_finish_response`, whose head may open a stream. -/
  | finishes (sse ws : Bool)
  /-- `_after_send`, the connection kept. -/
  | sent
  /-- `_send_frame`. -/
  | sendsFrame
  /-- A frame landed whole, or `_ws_linger`. -/
  | idles (ws : Bool)
  /-- `_chunked_stream_ends`. -/
  | streamEnds
  /-- `_close_slot`. -/
  | closes
  /-- The slot's turn in `_close_between_requests`. -/
  | drains
  deriving Repr

namespace Slot

/-- A request being read, head or body. -/
def ReadsRequest (x : Slot) : Prop :=
  x.attached ∧ x.offloaded = false ∧ (x.state = .readingHeaders ∨ x.state = .readingBody)

instance (x : Slot) : Decidable x.ReadsRequest := inferInstanceAs (Decidable (_ ∧ _))

/-- The connection is in `state`, its request not out. -/
def OnLoop (x : Slot) (state : ConnectionState) : Prop :=
  x.attached ∧ x.offloaded = false ∧ x.state = state

instance (x : Slot) (state : ConnectionState) : Decidable (x.OnLoop state) :=
  inferInstanceAs (Decidable (_ ∧ _))

/-- One slot of `_close_between_requests`. -/
def closeUnstarted (x : Slot) : Slot :=
  if !x.attached ∨ x.offloaded then x
  else
    if x.state = .readingHeaders ∧ !holdsARequest x.recvBuffer x.headStart ∨ x.state = .lingering then
      x.close
    else x

/-- One transition, where the code's checks let it happen. -/
def step (x : Slot) : Event → Option Slot
  | .admits =>
    -- the pool hands out a slot that no connection holds
    if x.attached then none else some ({ x with attached := true }.prepareForNewRequest false)
  | .reads recvBuffer requestEnd => some { x with recvBuffer, requestEnd }
  | .framesBody =>
    if x.OnLoop .readingHeaders then some { x with state := .readingBody } else none
  | .bodyCompletes => if x.ReadsRequest then some { x with state := .processing } else none
  | .rejects =>
    if x.ReadsRequest then some { x.prepareForNewRequest false with state := .lingering } else none
  | .goesOut => if x.OnLoop .processing then some { x with offloaded := true } else none
  | .comesBack => if x.offloaded then some { x with offloaded := false } else none
  | .finishes sse ws =>
    if x.OnLoop .processing then
      some { x with sse := x.sse || sse, ws := x.ws || ws, state := .responding }
    else none
  | .sent =>
    if x.OnLoop .responding then
      if x.ws then some { x with state := .streamingWs }
      else if x.sse then some { x with state := .streamingSse }
      else some (x.prepareForNewRequest true)
    else none
  | .sendsFrame =>
    if x.state = .streamingSse ∨ x.state = .streamingWs then some { x with state := .responding }
    else none
  | .idles ws =>
    if (if ws then x.ws else x.sse) then
      some { x with state := if ws then .streamingWs else .streamingSse }
    else none
  | .streamEnds => if x.OnLoop .responding then some { x with sse := false } else none
  | .closes =>
    -- each caller knows one of these: that no job is out, that the slot streams (a farewell, an
    -- abort, a frame that failed), that its head is still read
    if x.attached ∧ (x.offloaded = false ∨ x.Streams ∨ x.state = .readingHeaders) then some x.close
    else none
  | .drains => some x.closeUnstarted

end Slot

/-- The slots of a loop, and what it does to one of them at a time. -/
def system (maxConns : Nat) : LabelledSystem (Nat → Slot) (Nat × Event) where
  init _ := .unused
  next slots l :=
    if l.1 < maxConns then ((slots l.1).step l.2).map (Function.update slots l.1) else none

/-- `_close_between_requests`. -/
def closeBetweenRequests (maxConns : Nat) (slots : Nat → Slot) : Nat → Slot :=
  (List.range maxConns).foldl (fun slots s => Function.update slots s (slots s).closeUnstarted) slots

/-! ## What every run keeps -/

namespace Slot

theorem prepareForNewRequest_state (x : Slot) (keepPipelined : Bool) :
    (x.prepareForNewRequest keepPipelined).state = .readingHeaders := by
  unfold prepareForNewRequest
  split
  · rfl
  · rfl

/-- Who holds the slot, and whether its request is out, is not `prepareForNewRequest`'s. -/
theorem prepareForNewRequest_holder (x : Slot) (keepPipelined : Bool) :
    (x.prepareForNewRequest keepPipelined).attached = x.attached ∧
      (x.prepareForNewRequest keepPipelined).offloaded = x.offloaded ∧
      (x.prepareForNewRequest keepPipelined).sse = x.sse ∧
      (x.prepareForNewRequest keepPipelined).ws = x.ws := by
  unfold prepareForNewRequest
  split
  · exact ⟨rfl, rfl, rfl, rfl⟩
  · exact ⟨rfl, rfl, rfl, rfl⟩

/-- Which fields go together: a request that is out is one being processed, on a connection that
streams nothing, and a stream is answering or waits between its frames. -/
structure Ok (x : Slot) : Prop where
  out : x.offloaded = true → x.attached = true ∧ x.state = .processing ∧ ¬ x.Streams
  stream : x.Streams → x.attached = true ∧
    (x.state = .responding ∨ x.state = .streamingSse ∨ x.state = .streamingWs)

theorem unused_ok : unused.Ok where
  out h := Bool.noConfusion h
  stream h := by rcases h with h | h <;> cases h

/-- A slot whose request is not out, and that streams nothing, may be in any state. -/
theorem Ok.of_plain {x : Slot} (hout : x.offloaded = false) (hplain : ¬ x.Streams) : x.Ok where
  out h := by
    rw [hout] at h
    cases h
  stream h := absurd h hplain

/-- A connection that is answered, or streams, is not out. -/
theorem Ok.of_streamed {x : Slot} (hout : x.offloaded = false) (hopen : x.attached = true)
    (hstate : x.state = .responding ∨ x.state = .streamingSse ∨ x.state = .streamingWs) : x.Ok where
  out h := by
    rw [hout] at h
    cases h
  stream _ := ⟨hopen, hstate⟩

theorem Ok.plain {x : Slot} (h : x.Ok)
    (hstate : x.state = .readingHeaders ∨ x.state = .readingBody ∨ x.state = .processing ∨
      x.state = .lingering) : ¬ x.Streams := by
  intro hstreams
  rcases (h.stream hstreams).2 with heq | heq | heq
  all_goals simp [heq] at hstate

theorem Ok.inside {x : Slot} (h : x.Ok) (hstate : x.state ≠ .processing) : x.offloaded = false := by
  by_contra hout
  exact hstate (h.out (by simpa using hout)).2.1

theorem close_ok {x : Slot} (hout : x.offloaded = false) : x.close.Ok := by
  obtain ⟨-, hin, hsse, hws⟩ :=
    prepareForNewRequest_holder { x with attached := false, sse := false, ws := false } false
  refine .of_plain (hin.trans hout) fun h => ?_
  rcases h with h | h
  · exact Bool.noConfusion (hsse.symm.trans h)
  · exact Bool.noConfusion (hws.symm.trans h)

theorem Ok.closeUnstarted {x : Slot} (h : x.Ok) : x.closeUnstarted.Ok := by
  unfold Slot.closeUnstarted
  split
  · exact h
  next hheld =>
  split
  · exact close_ok (by simpa using fun hout => hheld (.inr hout))
  · exact h

/-- A new request's slot is plain when the connection is. -/
theorem prepareForNewRequest_plain {x : Slot} {keepPipelined : Bool} (hplain : ¬ x.Streams) :
    ¬ (x.prepareForNewRequest keepPipelined).Streams := by
  obtain ⟨-, -, hsse, hws⟩ := x.prepareForNewRequest_holder keepPipelined
  unfold Streams at hplain ⊢
  rwa [hsse, hws]

/-- **One transition.** -/
theorem Ok.step {x x' : Slot} {e : Event} (h : x.Ok) (hstep : x.step e = some x') : x'.Ok := by
  unfold Slot.step at hstep
  cases e with
  | admits =>
    simp only [Option.ite_none_left_eq_some, Option.some.injEq] at hstep
    obtain ⟨hclosed, rfl⟩ := hstep
    have hin : x.offloaded = false := by
      by_contra hout
      exact hclosed (h.out (by simpa using hout)).1
    have hplain : ¬ { x with attached := true }.Streams := fun hs => hclosed (h.stream hs).1
    exact .of_plain ((prepareForNewRequest_holder _ _).2.1.trans hin)
      (prepareForNewRequest_plain hplain)
  | reads recvBuffer requestEnd =>
    cases hstep
    exact ⟨h.out, h.stream⟩
  | framesBody =>
    simp only [Option.ite_none_right_eq_some, Option.some.injEq] at hstep
    obtain ⟨⟨-, hin, hstate⟩, rfl⟩ := hstep
    exact .of_plain hin (h.plain (.inl hstate))
  | bodyCompletes =>
    simp only [Option.ite_none_right_eq_some, Option.some.injEq] at hstep
    obtain ⟨⟨-, hin, hstate⟩, rfl⟩ := hstep
    exact .of_plain hin (h.plain (hstate.imp_right .inl))
  | rejects =>
    simp only [Option.ite_none_right_eq_some, Option.some.injEq] at hstep
    obtain ⟨⟨-, hin, hstate⟩, rfl⟩ := hstep
    have hplain : ¬ x.Streams := h.plain (hstate.imp_right .inl)
    exact .of_plain ((x.prepareForNewRequest_holder false).2.1.trans hin)
      (prepareForNewRequest_plain hplain)
  | goesOut =>
    simp only [Option.ite_none_right_eq_some, Option.some.injEq] at hstep
    obtain ⟨⟨hopen, -, hstate⟩, rfl⟩ := hstep
    have hplain : ¬ x.Streams := h.plain (.inr (.inr (.inl hstate)))
    exact ⟨fun _ => ⟨hopen, hstate, hplain⟩, fun hs => absurd hs hplain⟩
  | comesBack =>
    simp only [Option.ite_none_right_eq_some, Option.some.injEq] at hstep
    obtain ⟨hout, rfl⟩ := hstep
    exact .of_plain rfl (h.out hout).2.2
  | finishes sse ws =>
    simp only [Option.ite_none_right_eq_some, Option.some.injEq] at hstep
    obtain ⟨⟨hopen, hin, -⟩, rfl⟩ := hstep
    exact .of_streamed hin hopen (.inl rfl)
  | sent =>
    simp only [Option.ite_none_right_eq_some] at hstep
    obtain ⟨⟨hopen, hin, -⟩, hstep⟩ := hstep
    split at hstep
    · cases hstep
      exact .of_streamed hin hopen (.inr (.inr rfl))
    next hws =>
    split at hstep
    · cases hstep
      exact .of_streamed hin hopen (.inr (.inl rfl))
    next hsse =>
    cases hstep
    exact .of_plain ((x.prepareForNewRequest_holder true).2.1.trans hin)
      (prepareForNewRequest_plain (not_or.mpr ⟨hsse, hws⟩))
  | sendsFrame =>
    simp only [Option.ite_none_right_eq_some, Option.some.injEq] at hstep
    obtain ⟨hstate, rfl⟩ := hstep
    have hin : x.offloaded = false := h.inside (by rcases hstate with heq | heq <;> simp [heq])
    exact ⟨fun hout => absurd hout (by simp [hin]), fun hs => ⟨(h.stream hs).1, .inl rfl⟩⟩
  | idles ws =>
    simp only [Option.ite_none_right_eq_some, Option.some.injEq] at hstep
    obtain ⟨hflag, rfl⟩ := hstep
    have hstreams : x.Streams := by
      cases ws with
      | true => exact .inr hflag
      | false => exact .inl hflag
    obtain ⟨hopen, hstate⟩ := h.stream hstreams
    have hin : x.offloaded = false := by
      by_contra hout
      exact (h.out (by simpa using hout)).2.2 hstreams
    refine .of_streamed hin hopen (.inr ?_)
    cases ws with
    | true => exact .inr rfl
    | false => exact .inl rfl
  | streamEnds =>
    simp only [Option.ite_none_right_eq_some, Option.some.injEq] at hstep
    obtain ⟨⟨hopen, hin, hstate⟩, rfl⟩ := hstep
    exact .of_streamed hin hopen (.inl hstate)
  | closes =>
    simp only [Option.ite_none_right_eq_some, Option.some.injEq] at hstep
    obtain ⟨⟨-, hknown⟩, rfl⟩ := hstep
    -- whichever the caller knows, no job is out
    refine close_ok ?_
    rcases hknown with hin | hstreams | hstate
    · exact hin
    · by_contra hout
      exact (h.out (by simpa using hout)).2.2 hstreams
    · exact h.inside (by simp [hstate])
  | drains =>
    cases hstep
    exact h.closeUnstarted

end Slot

/-- Every slot is in order, and a connection sits below the capacity. -/
structure Held (maxConns : Nat) (slots : Nat → Slot) : Prop where
  ok : ∀ s, (slots s).Ok
  lt : ∀ s, (slots s).attached = true → s < maxConns

theorem reachable_held {maxConns : Nat} (e : (system maxConns).Execution) :
    ∀ k ≤ e.labels.length, Held maxConns (e.state k) := by
  refine e.invariant ⟨fun _ => Slot.unused_ok, fun _ h => Bool.noConfusion h⟩ fun slots l slots' h hnext => ?_
  simp only [system, Option.ite_none_right_eq_some, Option.map_eq_some_iff] at hnext
  obtain ⟨hlt, x, hstep, rfl⟩ := hnext
  refine ⟨fun s => ?_, fun s hopen => ?_⟩
  · rcases eq_or_ne s l.1 with rfl | hne
    · rw [Function.update_self]
      exact (h.ok _).step hstep
    · rw [Function.update_of_ne hne]
      exact h.ok s
  · rcases eq_or_ne s l.1 with rfl | hne
    · exact hlt
    · rw [Function.update_of_ne hne] at hopen
      exact h.lt s hopen

/-! ## What the drain closes -/

/-- **What the drain's pass does**: each slot below the capacity has its turn, once. -/
theorem closeBetweenRequests_apply (maxConns : Nat) (slots : Nat → Slot) (s : Nat) :
    closeBetweenRequests maxConns slots s =
      if s < maxConns then (slots s).closeUnstarted else slots s := by
  unfold closeBetweenRequests
  induction maxConns with
  | zero => rfl
  | succ n ih =>
    rw [List.range_succ, List.foldl_append, List.foldl_cons, List.foldl_nil]
    rcases Nat.lt_trichotomy s n with hlt | heq | hgt
    · rw [Function.update_of_ne (Nat.ne_of_lt hlt), ih, if_pos hlt, if_pos (Nat.lt_succ_of_lt hlt)]
    · subst heq
      rw [Function.update_self, ih, if_neg (Nat.lt_irrefl s), if_pos (Nat.lt_succ_self s)]
    · rw [Function.update_of_ne (Nat.ne_of_gt hgt), ih, if_neg (by omega), if_neg (by omega)]

/-- A request is being read, answered or streamed. -/
def Slot.InProgress (x : Slot) : Prop :=
  x.offloaded = true ∨ x.state = .readingBody ∨ x.state = .processing ∨ x.state = .responding ∨
    x.state = .streamingSse ∨ x.state = .streamingWs

theorem Slot.closeUnstarted_of_inProgress {x : Slot} (h : x.InProgress) : x.closeUnstarted = x := by
  unfold Slot.closeUnstarted
  split
  · rfl
  next hheld =>
  split
  · next hclosed =>
    exfalso
    have hin : x.offloaded = false := by simpa using fun hout => hheld (.inr hout)
    rcases hclosed with ⟨hstate, -⟩ | hstate
    · simp [Slot.InProgress, hin, hstate] at h
    · simp [Slot.InProgress, hin, hstate] at h
  · rfl

/-- A head that has arrived whole keeps its connection. -/
theorem Slot.closeUnstarted_of_head {x : Slot} (hstate : x.state = .readingHeaders)
    (hhead : holdsARequest x.recvBuffer x.headStart = true) : x.closeUnstarted = x := by
  unfold Slot.closeUnstarted
  simp [hstate, hhead]

/-- A connection that a slot's turn leaves reading headers holds a head whole. -/
theorem Slot.head_of_closeUnstarted {x : Slot} (hin : x.state = .readingHeaders → x.offloaded = false)
    (hopen : x.closeUnstarted.attached = true) (hstate : x.closeUnstarted.state = .readingHeaders) :
    HoldsAHead x.closeUnstarted.held := by
  unfold Slot.closeUnstarted at hopen hstate ⊢
  split at hopen
  · next hheld =>
    rw [if_pos hheld] at hstate
    rcases hheld with hclosed | hout
    · simp [hopen] at hclosed
    · rw [hin hstate] at hout
      cases hout
  next hheld =>
  rw [if_neg hheld] at hstate ⊢
  split at hopen
  · -- a closed one is nobody's
    have hnobody : x.close.attached = false := (Slot.prepareForNewRequest_holder _ _).1
    rw [hnobody] at hopen
    cases hopen
  next hkept =>
  rw [if_neg hkept] at hstate ⊢
  refine holdsARequest_iff.mp ?_
  by_contra hscan
  exact hkept (.inl ⟨hstate, by simpa using hscan⟩)

/-- **The drain closes no connection that holds a request.** What the framer takes as a request is
scanned as one; so, in every state a loop reaches, the drain's pass leaves as they were the slots
whose head has been framed and those with a request in progress, and every connection it leaves
reading headers holds a head whole. -/
theorem drain_spares_requests {maxConns : Nat} (e : (system maxConns).Execution) :
    (∀ (w : IndexWords) (limits : HeadLimits) (buf : Bytes) (start scanned : Nat)
        (head : Option ParsedRequestHeaders),
      (frameRequestHead w limits (buf.drop start) scanned head).1.outcome = .request →
        holdsARequest buf start = true) ∧
      ∀ k ≤ e.labels.length,
        (∀ s w limits scanned head, (e.state k s).state = .readingHeaders →
          (frameRequestHead w limits (e.state k s).held scanned head).1.outcome = .request →
            closeBetweenRequests maxConns (e.state k) s = e.state k s) ∧
        (∀ s, (e.state k s).InProgress → closeBetweenRequests maxConns (e.state k) s = e.state k s) ∧
        ∀ s, (closeBetweenRequests maxConns (e.state k) s).attached = true →
          (closeBetweenRequests maxConns (e.state k) s).state = .readingHeaders →
            HoldsAHead (closeBetweenRequests maxConns (e.state k) s).held := by
  have hframed : ∀ (w : IndexWords) (limits : HeadLimits) (buf : Bytes) (start scanned : Nat)
      (head : Option ParsedRequestHeaders),
      (frameRequestHead w limits (buf.drop start) scanned head).1.outcome = .request →
        holdsARequest buf start = true :=
    fun w limits buf start scanned head h => holdsARequest_iff.mpr (holdsAHead_of_request h)
  refine ⟨hframed, fun k hk => ⟨fun s w limits scanned head hstate hrequest => ?_, fun s hs => ?_,
    fun s hopen hstate => ?_⟩⟩
  · rw [closeBetweenRequests_apply,
      Slot.closeUnstarted_of_head hstate (hframed w limits _ _ scanned head hrequest), ite_self]
  · rw [closeBetweenRequests_apply, Slot.closeUnstarted_of_inProgress hs, ite_self]
  · have hheld := reachable_held e k hk
    rw [closeBetweenRequests_apply] at hopen hstate ⊢
    split at hopen
    · next hlt =>
      rw [if_pos hlt] at hstate ⊢
      exact Slot.head_of_closeUnstarted (fun hreads => (hheld.ok s).inside (by simp [hreads])) hopen hstate
    · next hge => exact absurd (hheld.lt s hopen) hge

/-- A connection whose request has come, and one that has sent a stray line end. -/
def requestAndStray : (system 2).Execution :=
  .ofRun _ [(0, .admits), (1, .admits), (0, .reads (ascii "GET / HTTP/1.0\r\n\r\n") 0),
    (1, .reads [CR, LF] 0)] (by decide)

/-- The first is kept, and no other is. -/
theorem drain_spares_get :
    let slots := closeBetweenRequests 2 (requestAndStray.state 4)
    (slots 0).attached = true ∧ HoldsAHead (slots 0).held ∧ (slots 1).attached = false := by
  intro slots
  obtain ⟨-, hdrain⟩ := drain_spares_requests requestAndStray
  obtain ⟨hspared, -, hheads⟩ := hdrain 4 (by decide)
  have hsame : slots 0 = requestAndStray.state 4 0 :=
    hspared 0 .packed ⟨8192, 4096, 1024⟩ 0 none (by decide) (by decide +kernel)
  have hopen : (slots 0).attached = true := by
    rw [hsame]
    decide
  have hstate : (slots 0).state = .readingHeaders := by
    rw [hsame]
    decide
  exact ⟨hopen, hheads 0 hopen hstate, by decide⟩

end MojoHttp.Drain
