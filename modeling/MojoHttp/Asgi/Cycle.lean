import MojoHttp.Bytes
import MojoHttp.Asgi.Credit

/-!
# A request on the executor (`m0_shim.py`, `_Cycle`)

One request: its task, the sends that any task makes on it, the credit they wait for, and the events it
hands to the port. A send that waits may look again at any time.

* **`Cycle.Sound.step`** — a step that hands out bytes or the end in turn keeps the events in form.
* **`Cycle.handed_in_turn`** — so does every run of such steps.
* **`Cycle.not_wellFormed`** — a send that another's final body overtakes hands its chunk out behind the
  end.
-/

namespace MojoHttp

def ASGI_CHUNK_SPLIT : Nat := 32 * 1024
def ASGI_BUFFER_CAP : Nat := 16 * 1024 * 1024

namespace Cycle

abbrev Headers := List (Bytes × Bytes)

/-- What the request hands to the port; what an error says is left out. -/
inductive Event where
  | done (status : Int) (headers : Headers) (body : Bytes)
  | err
  | streamStart (status : Int) (headers : Headers)
  | streamChunk (piece : Bytes)
  | streamEnd
  | streamAbort
  deriving Repr, DecidableEq

inductive Status where
  | waiting
  | returned
  /-- Its client has gone, or it was cancelled. -/
  | dropped
  deriving Repr, DecidableEq

/-- A body that a stream's `send` was given. -/
structure Send where
  data : Bytes
  /-- What it has handed out. -/
  out : Bytes
  /-- What it has not, piece by piece. -/
  pieces : List Bytes
  /-- `more_body` is false. -/
  final : Bool
  /-- It waits for the shared window, not for the slot's. -/
  waitsShared : Bool
  status : Status
  deriving Repr, DecidableEq

/-- How the application ends. -/
inductive Outcome where
  | returned
  | raised
  | cancelled
  deriving Repr, DecidableEq

/-- What its task comes to. -/
inductive Result where
  | answer (status : Int) (headers : Headers) (body : Bytes)
  | nothing
  | error
  | cancelled
  deriving Repr, DecidableEq

end Cycle

open Cycle

structure Cycle where
  /-- The request is a HEAD. -/
  head : Bool
  status : Option Int
  headers : Cycle.Headers
  chunks : List Bytes
  total : Nat
  streaming : Bool
  completed : Bool
  /-- `_m0_disconnected` of the request's task. -/
  disconnected : Bool
  /-- What the task came to: it is done. -/
  result : Option Result
  /-- The done-callback has run. -/
  settled : Bool
  window : Int
  /-- The credit that all slots share. -/
  shared : Int
  sends : List Send
  events : List Event

namespace Cycle

def new (head : Bool) : Cycle where
  head := head
  status := none
  headers := []
  chunks := []
  total := 0
  streaming := false
  completed := false
  disconnected := false
  result := none
  settled := false
  window := 0
  shared := ASGI_TOTAL_WINDOW
  sends := []
  events := []

/-- `_task_gone(self.task)`. -/
def gone (s : Cycle) : Bool := s.disconnected || s.result.isSome

def put (s : Cycle) (event : Event) : Cycle := { s with events := s.events ++ [event] }

def setSend (s : Cycle) (k : Nat) (w : Send) : Cycle := { s with sends := s.sends.set k w }

/-! ## A stream's send -/

/-- The pieces of `range(0, len(view), _ASGI_CHUNK_SPLIT)`. -/
def splitFrom : (fuel : Nat) → Bytes → List Bytes
  | 0, _ => []
  | fuel + 1, data =>
    if data.isEmpty then []
    else data.take ASGI_CHUNK_SPLIT :: splitFrom fuel (data.drop ASGI_CHUNK_SPLIT)

def splitPieces (data : Bytes) : List Bytes := splitFrom data.length data

/-- The rest of `send` when the client has gone: the bytes are dropped, and a final body completes the
response without a word. -/
def drop (s : Cycle) (k : Nat) (w : Send) : Cycle :=
  { s.setSend k { w with status := .dropped } with completed := s.completed || w.final }

/-- The rest of `send` behind its bytes: a final body ends the stream. -/
def endSend (s : Cycle) (k : Nat) (w : Send) : Cycle :=
  let s := s.setSend k { w with pieces := [], status := .returned }
  if w.final then
    let s := { s with completed := true }
    if s.gone then s else s.put .streamEnd
  else s

/-- `_emit` from a piece on, up to its next wait; `shared` says that it has the slot's credit. -/
def emit (s : Cycle) (k : Nat) (w : Send) (shared : Bool) : List Bytes → Cycle
  | [] => s.endSend k w
  | piece :: rest =>
    if s.gone then s.drop k { w with pieces := piece :: rest }
    else if !shared && s.window < piece.length then
      s.setSend k { w with pieces := piece :: rest, waitsShared := false }
    else if s.shared < piece.length then
      s.setSend k { w with pieces := piece :: rest, waitsShared := true }
    else
      ({ s with window := s.window - piece.length, shared := s.shared - piece.length }.put
        (.streamChunk piece)).emit k { w with out := w.out ++ piece } false rest

/-- A body given to a stream. -/
def give (s : Cycle) (data : Bytes) (pieces : List Bytes) (final : Bool) : Cycle :=
  let w : Send := ⟨data, [], pieces, final, false, .waiting⟩
  { s with sends := s.sends ++ [w] }.emit s.sends.length w false pieces

/-! ## `send` -/

/-- Nothing of the response may stream. -/
def noContent (s : Cycle) (status : Int) : Bool :=
  s.head || status < 200 || status == 204 || status == 304

/-- `http.response.body`. -/
def body (s : Cycle) (chunk : Bytes) (more : Bool) : Cycle :=
  if s.streaming then s.give chunk (splitPieces chunk) (!more)
  else
    match s.status with
    -- raises
    | none => s
    | some status =>
      if more then
        if s.noContent status then
          { s with completed := true, chunks := [], total := 0 }.put (.done status s.headers [])
        else
          ({ s with
            streaming := true
            window := ASGI_CREDIT_WINDOW
            chunks := []
            total := 0 }.put (.streamStart status s.headers)).give (s.chunks.flatten ++ chunk)
              ((s.chunks ++ [chunk]).flatMap splitPieces) false
      else
        let s := if chunk.isEmpty then s
          else { s with chunks := s.chunks ++ [chunk], total := s.total + chunk.length }
        -- raises past the cap
        if !chunk.isEmpty && s.total > ASGI_BUFFER_CAP then s
        else { s with completed := true, chunks := [] }.put (.done status s.headers s.chunks.flatten)

/-! ## `run`, and the done-callback -/

/-- The `finally` of `run`. -/
def farewell (s : Cycle) (outcome : Outcome) : List Event :=
  if s.streaming && !s.completed && !s.gone then
    [if outcome = .returned then .streamEnd else .streamAbort]
  else []

def outcomeResult (s : Cycle) : Outcome → Result
  | .raised => .error
  | .cancelled => .cancelled
  | .returned =>
    if s.streaming || s.completed then .nothing
    else
      match s.status with
      | none => .error
      | some status => .answer status s.headers s.chunks.flatten

/-- `_Cycle.done`: the completion that a response answered otherwise does not get. -/
def completion (s : Cycle) (result : Result) : List Event :=
  if s.completed || s.streaming then []
  else
    match result with
    | .answer status headers body => [.done status headers body]
    | .nothing => []
    | .error => [.err]
    | .cancelled => [.err]

inductive Label where
  /-- `http.response.start`, by any task. -/
  | start (status : Int) (headers : Cycle.Headers)
  | body (chunk : Bytes) (more : Bool)
  | wake (send : Nat)
  /-- A send is cancelled where it waits. -/
  | cancel (send : Nat)
  | ack (n : Nat)
  /-- What the other slots leave of the shared window. -/
  | others (shared : Int)
  | disconnect
  | finish (outcome : Outcome)
  | settle
  deriving Repr, DecidableEq

/-- A send now has nothing to answer. -/
def refuses (s : Cycle) : Bool := s.completed || s.result.isSome

def next (s : Cycle) : Label → Option Cycle
  | .start status headers =>
    some (if s.refuses then s else { s with status := some status, headers := headers })
  | .body chunk more => some (if s.refuses then s else s.body chunk more)
  | .wake k =>
    match s.sends[k]? with
    | none => none
    | some w => if w.status = .waiting then some (s.emit k w w.waitsShared w.pieces) else none
  | .cancel k =>
    match s.sends[k]? with
    | none => none
    | some w => if w.status = .waiting then some (s.setSend k { w with status := .dropped }) else none
  | .ack n => some { s with window := min (s.window + n) (ASGI_CREDIT_WINDOW : Int) }
  | .others shared => some { s with shared := shared }
  | .disconnect => some { s with disconnected := true }
  | .finish outcome =>
    if s.result.isSome then none
    else
      some { s with
        result := some (s.outcomeResult outcome)
        events := s.events ++ s.farewell outcome }
  | .settle =>
    match s.result with
    | none => none
    | some result =>
      if s.settled then none
      else some { s with settled := true, events := s.events ++ s.completion result }

def system (head : Bool) : LabelledSystem Cycle Label := ⟨new head, next⟩

/-! ## In turn -/

/-- The send has nothing to hand out, or no room for it. -/
def blocked (s : Cycle) (w : Send) : Bool :=
  match w.pieces with
  | [] => !w.final
  | piece :: _ => !w.waitsShared && s.window < piece.length || s.shared < piece.length

/-- The send hands nothing out, or does it while the response is not completed, when those before it
have handed out theirs. -/
def inTurnAt (s : Cycle) (k : Nat) (w : Send) : Bool :=
  s.gone || s.blocked w ||
    !s.completed && (s.sends.take k).all fun earlier => earlier.status != .waiting

/-- What the step hands out comes in turn. -/
def inTurn (s : Cycle) : Label → Bool
  | .wake k =>
    match s.sends[k]? with
    | none => true
    | some w => s.inTurnAt k w
  | .body chunk more =>
    s.refuses || !s.streaming ||
      s.inTurnAt s.sends.length ⟨chunk, [], splitPieces chunk, !more, false, .waiting⟩
  | .finish outcome =>
    (s.farewell outcome).isEmpty || outcome != .returned ||
      s.sends.all fun w => w.status != .waiting
  | _ => true

/-! ## What the events are to be -/

def streamTail : List Event → Bool
  | [] => true
  | [.streamEnd] => true
  | [.streamAbort] => true
  | .streamChunk _ :: events => streamTail events
  | _ => false

/-- One completion, or one stream: its head, its chunks, and at most one end. -/
def wellFormed : List Event → Bool
  | [] => true
  | [.done ..] => true
  | [.err] => true
  | .streamStart .. :: events => streamTail events
  | _ => false

def Event.chunk : Event → Bytes
  | .streamChunk piece => piece
  | _ => []

/-- The payloads of the chunks, in order. -/
def chunkBytes (events : List Event) : Bytes := events.flatMap Event.chunk

/-- Only sends behind a final body still wait. -/
def BehindFinal (sends : List Send) : Prop :=
  ∀ (k : Nat) (w : Send), sends[k]? = some w → w.status = .waiting →
    ∃ (j : Nat) (last : Send), j < k ∧ sends[j]? = some last ∧ last.final = true

/-- What the request has handed to the port. -/
structure Handed (s : Cycle) : Prop where
  shape : wellFormed s.events = true
  /-- The request is answered by the end of its task. -/
  answered : s.settled = true → s.events ≠ []
  /-- The bytes come in the order of the sends, -/
  in_order : chunkBytes s.events = s.sends.flatMap Send.out
  /-- each a send's own, and all of them when it has returned. -/
  sent : ∀ w ∈ s.sends, w.out <+: w.data ∧ (w.status = .returned → w.out = w.data)
  /-- A clean end comes behind all the bytes, but for sends behind a final body. -/
  whole : .streamEnd ∈ s.events → BehindFinal s.sends

/-! ## Events one behind the other -/

/-- A stream under way. -/
def Open (events : List Event) : Prop :=
  ∃ (status : Int) (headers : Cycle.Headers) (pieces : List Bytes),
    events = .streamStart status headers :: pieces.map Event.streamChunk

def Event.terminal : Event → Bool
  | .streamEnd => true
  | .streamAbort => true
  | _ => false

theorem streamTail_chunks (pieces : List Bytes) {e : Event} (he : e.terminal = true) :
    streamTail (pieces.map Event.streamChunk) = true ∧
      streamTail (pieces.map Event.streamChunk ++ [e]) = true := by
  induction pieces with
  | nil =>
    refine ⟨rfl, ?_⟩
    cases e with
    | streamEnd => rfl
    | streamAbort => rfl
    | _ => cases he
  | cons piece pieces ih => exact ih

theorem Open.wellFormed {events : List Event} (h : Open events) : wellFormed events = true := by
  obtain ⟨status, headers, pieces, rfl⟩ := h
  exact (streamTail_chunks pieces (e := .streamEnd) rfl).1

theorem Open.wellFormed_end {events : List Event} (h : Open events) {e : Event}
    (he : e.terminal = true) : Cycle.wellFormed (events ++ [e]) = true := by
  obtain ⟨status, headers, pieces, rfl⟩ := h
  exact (streamTail_chunks pieces he).2

theorem Open.chunk {events : List Event} (h : Open events) (piece : Bytes) :
    Open (events ++ [Event.streamChunk piece]) := by
  obtain ⟨status, headers, pieces, rfl⟩ := h
  exact ⟨status, headers, pieces ++ [piece], by rw [List.map_append]; rfl⟩

theorem Open.no_end {events : List Event} (h : Open events) : .streamEnd ∉ events := by
  obtain ⟨status, headers, pieces, rfl⟩ := h
  simp

theorem chunkBytes_append (events : List Event) (e : Event) :
    chunkBytes (events ++ [e]) = chunkBytes events ++ e.chunk := by
  simp [chunkBytes]

theorem flatten_splitPieces (data : Bytes) : (splitPieces data).flatten = data := by
  have hsplit : ∀ (fuel : Nat) (data : Bytes), data.length ≤ fuel →
      (splitFrom fuel data).flatten = data := by
    intro fuel
    induction fuel with
    | zero =>
      intro data hlen
      rw [List.length_eq_zero_iff.mp (Nat.le_zero.mp hlen)]
      rfl
    | succ fuel ih =>
      intro data hlen
      unfold splitFrom
      split
      · next hempty => rw [List.isEmpty_iff.mp hempty, List.flatten_nil]
      · next hsome =>
        have hpos : 0 < data.length := by
          rw [List.isEmpty_iff] at hsome
          exact List.length_pos_iff.mpr hsome
        have hrest := ih (data.drop ASGI_CHUNK_SPLIT) (by
          rw [List.length_drop]
          have hsplit : 0 < ASGI_CHUNK_SPLIT := by decide
          omega)
        rw [List.flatten_cons, hrest, List.take_append_drop]
  exact hsplit _ data (Nat.le_refl _)

/-! ## What every step in turn keeps -/

/-- What a send has handed out and what it has not are what it was given. -/
structure Send.Ok (w : Send) : Prop where
  waiting : w.status = .waiting → w.data = w.out ++ w.pieces.flatten
  returned : w.status = .returned → w.out = w.data
  out : w.out <+: w.data

/-- A send behind one that waits has handed nothing out. -/
def InOrder (sends : List Send) : Prop :=
  ∀ (j k : Nat) (earlier later : Send), j < k → sends[j]? = some earlier → sends[k]? = some later →
    earlier.status = .waiting → later.out = []

structure Sound (s : Cycle) : Prop where
  /-- Before the response there is nothing, and behind a completion nothing more. -/
  idle : s.streaming = false → s.sends = [] ∧
    if s.completed || s.settled then ∃ e : Event, s.events = [e] ∧ wellFormed [e] = true ∧ e.chunk = [] ∧
      e ≠ .streamEnd
    else s.events = []
  stream : s.streaming = true → wellFormed s.events = true ∧ s.events ≠ []
  running : s.streaming = true → s.completed = false → s.result = none → Open s.events
  in_order : chunkBytes s.events = s.sends.flatMap Send.out
  oks : ∀ w ∈ s.sends, w.Ok
  order : InOrder s.sends
  whole : .streamEnd ∈ s.events → BehindFinal s.sends
  result : s.result = some .nothing → (s.streaming || s.completed) = true
  settles : s.settled = true → s.result.isSome = true

theorem sound_new (head : Bool) : Sound (new head) where
  idle _ := ⟨rfl, rfl⟩
  stream h := nomatch h
  running h := nomatch h
  in_order := rfl
  oks _ h := nomatch h
  order _ _ _ _ _ h := nomatch h
  whole h := nomatch h
  result h := nomatch h
  settles h := nomatch h

variable {s : Cycle}

theorem Sound.handed (h : s.Sound) : s.Handed where
  shape := by
    cases hs : s.streaming with
    | true => exact (h.stream hs).1
    | false =>
      have ⟨_, hevents⟩ := h.idle hs
      split at hevents
      · obtain ⟨e, heq, hwell, _⟩ := hevents
        rw [heq]
        exact hwell
      · rw [hevents]
        rfl
  answered hsettled := by
    cases hs : s.streaming with
    | true => exact (h.stream hs).2
    | false =>
      have ⟨_, hevents⟩ := h.idle hs
      rw [hsettled, Bool.or_true, if_pos rfl] at hevents
      obtain ⟨e, heq, _⟩ := hevents
      rw [heq]
      exact List.cons_ne_nil _ _
  in_order := h.in_order
  sent w hw := ⟨(h.oks w hw).out, (h.oks w hw).returned⟩
  whole := h.whole

/-! ### One send among the others -/

theorem getElem?_set_cases {sends : List Send} {k j : Nat} {w v : Send}
    (h : (sends.set k w)[j]? = some v) : (j = k ∧ v = w) ∨ (j ≠ k ∧ sends[j]? = some v) := by
  rcases Decidable.em (j = k) with rfl | hne
  · have ⟨hlt, hget⟩ := List.getElem?_eq_some_iff.mp h
    rw [List.getElem_set_self] at hget
    exact Or.inl ⟨rfl, hget.symm⟩
  · rw [List.getElem?_set_ne (Ne.symm hne)] at h
    exact Or.inr ⟨hne, h⟩

/-- A send that has handed out as much as before, and waits no more than before. -/
theorem Sound.replace {k : Nat} {w w' : Send} (h : (s.setSend k w).Sound) (hk : k < s.sends.length)
    (hout : w'.out = w.out) (hfinal : w'.final = w.final) (hok : w'.Ok)
    (hwaits : w'.status = .waiting → w.status = .waiting) : (s.setSend k w').Sound := by
  have hself : (s.sends.set k w)[k]? = some w := List.getElem?_set_self hk
  have hself' : (s.sends.set k w')[k]? = some w' := List.getElem?_set_self hk
  have hother : ∀ {j v}, j ≠ k → (s.sends[j]? = some v ↔ (s.sends.set k w)[j]? = some v) := by
    intro j v hne
    rw [List.getElem?_set_ne (Ne.symm hne)]
  have hflat : (s.sends.set k w').flatMap Send.out = (s.sends.set k w).flatMap Send.out := by
    rw [List.set_eq_take_append_cons_drop, List.set_eq_take_append_cons_drop, if_pos hk, if_pos hk]
    simp only [List.flatMap_append, List.flatMap_cons, hout]
  refine ⟨fun hs => ?_, h.stream, h.running, h.in_order.trans hflat.symm, fun v hv => ?_, ?_, ?_,
    h.result, h.settles⟩
  · -- there are no sends before the stream
    have ⟨hnone, _⟩ := h.idle hs
    have hlen := congrArg List.length hnone
    rw [show (s.setSend k w).sends.length = s.sends.length from List.length_set, List.length_nil] at hlen
    omega
  · obtain ⟨j, hj⟩ := List.mem_iff_getElem?.mp hv
    rcases getElem?_set_cases hj with ⟨_, rfl⟩ | ⟨hne, hold⟩
    · exact hok
    · exact h.oks v (List.mem_iff_getElem?.mpr ⟨j, (hother hne).mp hold⟩)
  · intro j i earlier later hlt hearlier hlater hwaiting
    -- who waits waited, and who has handed nothing out had not
    have hbefore : ∃ v, (s.sends.set k w)[j]? = some v ∧ v.status = .waiting := by
      rcases getElem?_set_cases hearlier with ⟨rfl, rfl⟩ | ⟨hne, hold⟩
      · exact ⟨w, hself, hwaits hwaiting⟩
      · exact ⟨earlier, (hother hne).mp hold, hwaiting⟩
    obtain ⟨v, hv, hvwaits⟩ := hbefore
    rcases getElem?_set_cases hlater with ⟨rfl, rfl⟩ | ⟨hne, hold⟩
    · rw [hout]
      exact h.order j i v w hlt hv hself hvwaits
    · exact h.order j i v later hlt hv ((hother hne).mp hold) hvwaits
  · intro hend i v hv hwaiting
    have hbefore : ∃ u, (s.sends.set k w)[i]? = some u ∧ u.status = .waiting := by
      rcases getElem?_set_cases hv with ⟨rfl, rfl⟩ | ⟨hne, hold⟩
      · exact ⟨w, hself, hwaits hwaiting⟩
      · exact ⟨v, (hother hne).mp hold, hwaiting⟩
    obtain ⟨u, hu, huwaits⟩ := hbefore
    obtain ⟨j, last, hlt, hlast, hyes⟩ := h.whole hend i u hu huwaits
    rcases getElem?_set_cases hlast with ⟨rfl, rfl⟩ | ⟨hne, hold⟩
    · exact ⟨j, w', hlt, hself', hfinal.trans hyes⟩
    · refine ⟨j, last, hlt, ?_, hyes⟩
      rw [show (s.setSend k w').sends[j]? = (s.sends.set k w')[j]? from rfl,
        List.getElem?_set_ne (Ne.symm hne)]
      exact hold

/-- The response is over, as far as the request knows. -/
theorem Sound.complete (h : s.Sound) (hs : s.streaming = true) (b : Bool) :
    ({ s with completed := s.completed || b } : Cycle).Sound where
  idle hidle := nomatch hs.symm.trans hidle
  stream := h.stream
  running _ hcompleted := h.running hs (Bool.or_eq_false_iff.mp hcompleted).1
  in_order := h.in_order
  oks := h.oks
  order := h.order
  whole := h.whole
  result hresult := by
    rw [Bool.or_eq_true]
    exact Or.inl hs
  settles := h.settles

/-- The sends before the `k`-th wait for nothing. -/
def EarlierOver (s : Cycle) (k : Nat) : Prop :=
  ∀ (j : Nat) (v : Send), j < k → s.sends[j]? = some v → v.status ≠ .waiting

theorem turn_cases {k : Nat} {w : Send} (hturn : s.inTurnAt k w = true) :
    s.gone = true ∨ s.blocked w = true ∨ (s.completed = false ∧ s.EarlierOver k) := by
  unfold inTurnAt at hturn
  rw [Bool.or_eq_true, Bool.or_eq_true, Bool.and_eq_true] at hturn
  rcases hturn with (hgone | hblocked) | ⟨hrunning, hall⟩
  · exact Or.inl hgone
  · exact Or.inr (Or.inl hblocked)
  · refine Or.inr (Or.inr ⟨by rwa [Bool.not_eq_true'] at hrunning, fun j v hj hv => ?_⟩)
    have htake : (s.sends.take k)[j]? = some v := by rwa [List.getElem?_take_of_lt hj]
    have hover := List.all_eq_true.mp hall v (List.mem_iff_getElem?.mpr ⟨j, htake⟩)
    exact bne_iff_ne.mp hover

/-- A piece handed out by the first send that waits. -/
theorem Sound.chunk {k : Nat} {w : Send} {piece : Bytes} {rest : List Bytes}
    (h : (s.setSend k { w with pieces := piece :: rest }).Sound) (hk : k < s.sends.length)
    (hw : w.status = .waiting) (hopen : Open s.events) (hs : s.streaming = true)
    (hearlier : s.EarlierOver k) :
    ((s.put (.streamChunk piece)).setSend k
      { w with out := w.out ++ piece, pieces := rest }).Sound := by
  have hself : (s.sends.set k { w with pieces := piece :: rest })[k]? =
      some { w with pieces := piece :: rest } := List.getElem?_set_self hk
  have hold := h.oks _ (List.mem_iff_getElem?.mpr ⟨k, hself⟩)
  have hdata : w.data = w.out ++ (piece ++ rest.flatten) := hold.waiting hw
  refine ⟨fun hidle => (nomatch hs.symm.trans hidle), fun _ => ⟨(hopen.chunk piece).wellFormed, ?_⟩,
    fun _ _ _ => hopen.chunk piece, ?_, fun v hv => ?_, ?_, ?_, h.result, h.settles⟩
  · exact List.append_ne_nil_of_right_ne_nil _ (List.cons_ne_nil _ _)
  · -- the sends behind this one have handed nothing out
    have hlater : ∀ v ∈ s.sends.drop (k + 1), v.out = [] := by
      intro v hv
      obtain ⟨i, hi⟩ := List.mem_iff_getElem?.mp hv
      rw [List.getElem?_drop] at hi
      have hne : k + 1 + i ≠ k := by omega
      refine h.order k (k + 1 + i) _ v (by omega) hself ?_ hw
      show (s.sends.set k _)[k + 1 + i]? = some v
      rw [List.getElem?_set_ne (Ne.symm hne)]
      exact hi
    have hnone : (s.sends.drop (k + 1)).flatMap Send.out = [] := List.flatMap_eq_nil_iff.mpr hlater
    have hbefore : chunkBytes s.events =
        (s.sends.set k { w with pieces := piece :: rest }).flatMap Send.out := h.in_order
    show chunkBytes (s.events ++ [Event.streamChunk piece]) =
      (s.sends.set k { w with out := w.out ++ piece, pieces := rest }).flatMap Send.out
    rw [chunkBytes_append, hbefore, List.set_eq_take_append_cons_drop, if_pos hk,
      List.set_eq_take_append_cons_drop, if_pos hk]
    simp only [List.flatMap_append, List.flatMap_cons, hnone, List.append_nil, List.append_assoc]
    rfl
  · obtain ⟨j, hj⟩ := List.mem_iff_getElem?.mp hv
    rcases getElem?_set_cases hj with ⟨_, rfl⟩ | ⟨hne, hother⟩
    · refine ⟨fun _ => ?_, fun hreturned => (nomatch hw.symm.trans hreturned), ?_⟩
      · show w.data = w.out ++ piece ++ rest.flatten
        rw [hdata, List.append_assoc]
      · show w.out ++ piece <+: w.data
        rw [hdata, ← List.append_assoc]
        exact List.prefix_append _ _
    · refine h.oks v (List.mem_iff_getElem?.mpr ⟨j, ?_⟩)
      show (s.sends.set k _)[j]? = some v
      rw [List.getElem?_set_ne (Ne.symm hne)]
      exact hother
  · intro j i earlier later hlt hj hi hwaiting
    -- none before this one waits, and behind this one only the others' bytes count
    rcases getElem?_set_cases hj with ⟨rfl, rfl⟩ | ⟨hne, hother⟩
    · have hine : i ≠ j := by omega
      rcases getElem?_set_cases hi with ⟨rfl, _⟩ | ⟨_, hi'⟩
      · exact absurd rfl hine
      · refine h.order j i _ later hlt hself ?_ hw
        show (s.sends.set j _)[i]? = some later
        rw [List.getElem?_set_ne (Ne.symm hine)]
        exact hi'
    · have hkj : k < j := by
        rcases Nat.lt_trichotomy j k with hjk | hjk | hjk
        · exact absurd hwaiting (hearlier j earlier hjk hother)
        · exact absurd hjk hne
        · exact hjk
      rcases getElem?_set_cases hi with ⟨rfl, _⟩ | ⟨hine, hi'⟩
      · omega
      · refine h.order j i earlier later hlt ?_ ?_ hwaiting
        · show (s.sends.set k _)[j]? = some earlier
          rw [List.getElem?_set_ne (Ne.symm hne)]
          exact hother
        · show (s.sends.set k _)[i]? = some later
          rw [List.getElem?_set_ne (Ne.symm hine)]
          exact hi'
  · intro hend
    rcases List.mem_append.mp hend with hend | hend
    · exact absurd hend hopen.no_end
    · cases List.mem_singleton.mp hend

/-- The clean end, behind the first send that waited. -/
theorem Sound.finalEnd {k : Nat} {w : Send} (h : (s.setSend k w).Sound) (hk : k < s.sends.length)
    (hw : w.status = .returned) (hfinal : w.final = true) (hopen : Open s.events)
    (hs : s.streaming = true) (hearlier : s.EarlierOver k) :
    (({ s.setSend k w with completed := true } : Cycle).put .streamEnd).Sound := by
  refine ⟨fun hidle => (nomatch hs.symm.trans hidle), fun _ => ⟨hopen.wellFormed_end rfl, ?_⟩,
    fun _ hcompleted => (nomatch hcompleted), ?_, h.oks, h.order, fun _ i v hi hwaiting => ?_,
    fun _ => Bool.or_true _, h.settles⟩
  · exact List.append_ne_nil_of_right_ne_nil _ (List.cons_ne_nil _ _)
  · show chunkBytes (s.events ++ [Event.streamEnd]) = _
    rw [chunkBytes_append]
    exact (List.append_nil _).trans h.in_order
  · rcases getElem?_set_cases hi with ⟨_, rfl⟩ | ⟨hne, hother⟩
    · exact nomatch hw.symm.trans hwaiting
    · have hki : k < i := by
        rcases Nat.lt_trichotomy i k with hik | hik | hik
        · exact absurd hwaiting (hearlier i v hik hother)
        · exact absurd hik hne
        · exact hik
      exact ⟨k, w, hki, List.getElem?_set_self hk, hfinal⟩

theorem Sound.drop {k : Nat} {w : Send} (h : (s.setSend k w).Sound) (hk : k < s.sends.length)
    (hs : s.streaming = true) (hok : w.Ok) : (s.drop k w).Sound := by
  have hdropped : (s.setSend k { w with status := .dropped }).Sound :=
    h.replace hk rfl rfl ⟨fun hw => (nomatch hw), fun hw => (nomatch hw), hok.out⟩ fun hw => nomatch hw
  exact hdropped.complete hs w.final

theorem Sound.ok {k : Nat} {w : Send} (h : (s.setSend k w).Sound) (hk : k < s.sends.length) : w.Ok :=
  h.oks w (List.mem_iff_getElem?.mpr ⟨k, List.getElem?_set_self hk⟩)

/-- The end of a send that has handed everything out. -/
theorem Sound.endSend {k : Nat} {w : Send} (h : (s.setSend k { w with pieces := [] }).Sound)
    (hk : k < s.sends.length) (hw : w.status = .waiting) (hs : s.streaming = true)
    (hturn : s.gone = true ∨ w.final = false ∨ (s.completed = false ∧ s.EarlierOver k)) :
    (s.endSend k w).Sound := by
  have hok := h.ok hk
  have hall : w.out = w.data := by
    have hdata := hok.waiting hw
    rw [List.flatten_nil, List.append_nil] at hdata
    exact hdata.symm
  have hreturned : (s.setSend k { w with pieces := [], status := .returned }).Sound :=
    h.replace hk rfl rfl ⟨fun hwaiting => (nomatch hwaiting), fun _ => hall, hok.out⟩
      fun hwaiting => nomatch hwaiting
  unfold Cycle.endSend
  dsimp only
  split
  · next hfinal =>
    have hcompleted : ({ s.setSend k { w with pieces := [], status := .returned } with
        completed := true } : Cycle).Sound := by
      have hc := hreturned.complete hs true
      rwa [Bool.or_true] at hc
    split
    · exact hcompleted
    · next hgone =>
      have hhere : s.gone = false := Bool.eq_false_iff.mpr hgone
      rcases hturn with hturn | hturn | ⟨hrunning, hearlier⟩
      · exact nomatch hhere.symm.trans hturn
      · exact nomatch hturn.symm.trans hfinal
      · have hnone : s.result = none := Option.isNone_iff_eq_none.mp (by
          rw [← Option.not_isSome, (Bool.or_eq_false_iff.mp hhere).2]
          rfl)
        exact hreturned.finalEnd hk rfl hfinal (h.running hs hrunning hnone) hs hearlier
  · exact hreturned

/-- A send goes on, up to its next wait. -/
theorem Sound.emit {k : Nat} {w : Send} {shared : Bool} {pieces : List Bytes}
    (h : (s.setSend k { w with pieces := pieces }).Sound) (hk : k < s.sends.length)
    (hw : w.status = .waiting) (hs : s.streaming = true)
    (hturn : s.gone = true ∨
      s.blocked { w with pieces := pieces, waitsShared := shared } = true ∨
      (s.completed = false ∧ s.EarlierOver k)) : (s.emit k w shared pieces).Sound := by
  induction pieces generalizing s w shared with
  | nil =>
    refine h.endSend hk hw hs (hturn.imp_right (Or.imp_left ?_))
    exact fun hblocked => by rwa [← Bool.not_eq_true']
  | cons piece rest ih =>
    have hok := h.ok hk
    -- a wait keeps what it has not handed out
    have hwait : ∀ b : Bool,
        (s.setSend k { w with pieces := piece :: rest, waitsShared := b }).Sound := by
      intro b
      exact h.replace hk rfl rfl ⟨hok.waiting, hok.returned, hok.out⟩ id
    unfold Cycle.emit
    split
    · exact h.drop hk hs hok
    · next hgone =>
      split
      · exact hwait false
      · next hslot =>
        split
        · exact hwait true
        · next hshared =>
          have hhere : s.gone = false := Bool.eq_false_iff.mpr hgone
          have ⟨hrunning, hearlier⟩ : s.completed = false ∧ s.EarlierOver k := by
            rcases hturn with hturn | hturn | hturn
            · exact nomatch hhere.symm.trans hturn
            · -- the send had room
              have hroom : s.blocked { w with pieces := piece :: rest, waitsShared := shared } = false := by
                show (!shared && decide (s.window < piece.length) || decide (s.shared < piece.length)) =
                  false
                rw [Bool.or_eq_false_iff]
                exact ⟨Bool.eq_false_iff.mpr hslot, decide_eq_false hshared⟩
              exact nomatch hroom.symm.trans hturn
            · exact hturn
          have hnone : s.result = none := Option.isNone_iff_eq_none.mp (by
            rw [← Option.not_isSome, (Bool.or_eq_false_iff.mp hhere).2]
            rfl)
          have hchunk := h.chunk hk hw (h.running hs hrunning hnone) hs hearlier
          exact ih (s := { s with
              window := s.window - piece.length, shared := s.shared - piece.length }.put
                (.streamChunk piece))
            (w := { w with out := w.out ++ piece })
            ⟨hchunk.idle, hchunk.stream, hchunk.running, hchunk.in_order, hchunk.oks, hchunk.order,
              hchunk.whole, hchunk.result, hchunk.settles⟩ hk hw hs
            (Or.inr (Or.inr ⟨hrunning, hearlier⟩))

/-- A body that the stream has not ended before. -/
theorem Sound.push (h : s.Sound) (hs : s.streaming = true) (hopen : Open s.events) {w : Send}
    (hout : w.out = []) (hok : w.Ok) : ({ s with sends := s.sends ++ [w] } : Cycle).Sound := by
  refine ⟨fun hidle => (nomatch hs.symm.trans hidle), h.stream, h.running, ?_, fun v hv => ?_, ?_,
    fun hend => absurd hend hopen.no_end, h.result, h.settles⟩
  · show chunkBytes s.events = (s.sends ++ [w]).flatMap Send.out
    rw [List.flatMap_append, List.flatMap_singleton, hout, List.append_nil]
    exact h.in_order
  · rcases List.mem_append.mp hv with hv | hv
    · exact h.oks v hv
    · rw [List.mem_singleton.mp hv]
      exact hok
  · intro j i earlier later hlt hj hi hwaiting
    have hi' : (s.sends ++ [w])[i]? = some later := hi
    have hj' : (s.sends ++ [w])[j]? = some earlier := hj
    have hilt : i < s.sends.length + 1 := by
      have hbound := (List.getElem?_eq_some_iff.mp hi').1
      rwa [List.length_append] at hbound
    rw [List.getElem?_append_left (by omega)] at hj'
    rcases Nat.lt_or_ge i s.sends.length with hin | hin
    · rw [List.getElem?_append_left hin] at hi'
      exact h.order j i earlier later hlt hj' hi' hwaiting
    · rw [List.getElem?_append_right hin, show i - s.sends.length = 0 by omega] at hi'
      cases hi'
      exact hout

/-- A body given to a stream, in its turn. -/
theorem Sound.give (h : s.Sound) (hs : s.streaming = true) (hcompleted : s.completed = false)
    (hnone : s.result = none) {data : Bytes} {pieces : List Bytes} {final : Bool}
    (hdata : data = pieces.flatten)
    (hturn : s.inTurnAt s.sends.length ⟨data, [], pieces, final, false, .waiting⟩ = true) :
    (s.give data pieces final).Sound := by
  have hopen := h.running hs hcompleted hnone
  have hpushed := h.push hs hopen (w := ⟨data, [], pieces, final, false, .waiting⟩) rfl
    ⟨fun _ => hdata, fun hreturned => (nomatch hreturned), List.nil_prefix⟩
  have hlt : s.sends.length < (s.sends ++ [(⟨data, [], pieces, final, false, .waiting⟩ : Send)]).length := by
    rw [List.length_append]
    exact Nat.lt_succ_self _
  have hsame : (s.sends ++ [(⟨data, [], pieces, final, false, .waiting⟩ : Send)]).set s.sends.length
      ⟨data, [], pieces, final, false, .waiting⟩ =
        s.sends ++ [⟨data, [], pieces, final, false, .waiting⟩] := by
    rw [List.set_append_right _ _ (Nat.le_refl _), Nat.sub_self]
    rfl
  have hset : (({ s with sends := s.sends ++ [⟨data, [], pieces, final, false, .waiting⟩] } :
      Cycle).setSend s.sends.length ⟨data, [], pieces, final, false, .waiting⟩).Sound := by
    unfold setSend
    dsimp only
    rw [hsame]
    exact hpushed
  refine Sound.emit (w := ⟨data, [], pieces, final, false, .waiting⟩) hset hlt rfl hs ?_
  rcases turn_cases hturn with hgone | hblocked | ⟨_, hearlier⟩
  · exact Or.inl hgone
  · exact Or.inr (Or.inl hblocked)
  · refine Or.inr (Or.inr ⟨hcompleted, fun j v hj hv => hearlier j v hj ?_⟩)
    rwa [← List.getElem?_append_left hj]

/-! ### One step -/

theorem Sound.refuses_eq_false (h : s.refuses = false) : s.completed = false ∧ s.result = none := by
  have ⟨hcompleted, hresult⟩ := Bool.or_eq_false_iff.mp h
  rw [← Option.not_isNone] at hresult
  exact ⟨hcompleted, Option.isNone_iff_eq_none.mp (by rwa [Bool.not_eq_false'] at hresult)⟩

/-- A request that neither streams nor is answered has handed nothing out. -/
theorem Sound.nothing_yet (h : s.Sound) (hs : s.streaming = false) (hcompleted : s.completed = false)
    (hsettled : s.settled = false) : s.sends = [] ∧ s.events = [] := by
  have ⟨hsends, hevents⟩ := h.idle hs
  rw [hcompleted, hsettled, if_neg (by decide)] at hevents
  exact ⟨hsends, hevents⟩

/-- A completion, the first thing the request hands out. -/
theorem Sound.answer (h : s.Sound) (hs : s.streaming = false) (hevents : s.events = []) {s' : Cycle}
    {e : Event} (hstreams : s'.streaming = s.streaming) (hsends : s'.sends = s.sends)
    (heq : s'.events = s.events ++ [e]) (hwell : wellFormed [e] = true) (hchunk : e.chunk = [])
    (hend : e ≠ .streamEnd) (hover : (s'.completed || s'.settled) = true)
    (hresult : s'.result = some .nothing → (s'.streaming || s'.completed) = true)
    (hsettles : s'.settled = true → s'.result.isSome = true) : s'.Sound := by
  have hidle : s'.streaming = false := hstreams.trans hs
  have hnone : s'.sends = [] := hsends.trans (h.idle hs).1
  rw [hevents, List.nil_append] at heq
  refine ⟨fun _ => ⟨hnone, ?_⟩, fun hyes => (nomatch hidle.symm.trans hyes),
    fun hyes => (nomatch hidle.symm.trans hyes), ?_, fun w hw => ?_, ?_, fun hmem => ?_, hresult, hsettles⟩
  · rw [if_pos hover]
    exact ⟨e, heq, hwell, hchunk, hend⟩
  · rw [heq, hnone]
    show e.chunk ++ [] = []
    rw [hchunk]
    rfl
  · rw [hnone] at hw
    cases hw
  · intro j i earlier later _ hj
    rw [hnone] at hj
    cases hj
  · rw [heq] at hmem
    exact absurd (List.mem_singleton.mp hmem).symm hend

theorem Sound.settled_eq_false (h : s.Sound) (hnone : s.result = none) : s.settled = false := by
  cases hset : s.settled with
  | false => rfl
  | true =>
    have hsome := h.settles hset
    rw [hnone] at hsome
    cases hsome

/-- The head of a stream, the first thing the request hands out. -/
theorem Sound.streamStart (h : s.Sound) (hs : s.streaming = false) (hcompleted : s.completed = false)
    (hnone : s.result = none) (status : Int) (window : Int) :
    (({ s with
      streaming := true
      window := window
      chunks := []
      total := 0 } : Cycle).put (.streamStart status s.headers)).Sound := by
  have ⟨hsends, hevents⟩ := h.nothing_yet hs hcompleted (h.settled_eq_false hnone)
  have hopen : Open (s.events ++ [Event.streamStart status s.headers]) := by
    rw [hevents]
    exact ⟨status, s.headers, [], rfl⟩
  refine ⟨fun hidle => (nomatch hidle), fun _ => ⟨hopen.wellFormed, ?_⟩, fun _ _ _ => hopen, ?_, h.oks,
    h.order, fun hmem => absurd hmem hopen.no_end, fun _ => rfl, h.settles⟩
  · exact List.append_ne_nil_of_right_ne_nil _ (List.cons_ne_nil _ _)
  · show chunkBytes (s.events ++ [Event.streamStart status s.headers]) = s.sends.flatMap Send.out
    rw [chunkBytes_append, h.in_order]
    exact List.append_nil _

theorem flatten_flatMap_splitPieces (chunks : List Bytes) :
    (chunks.flatMap splitPieces).flatten = chunks.flatten := by
  induction chunks with
  | nil => rfl
  | cons chunk chunks ih =>
    rw [List.flatMap_cons, List.flatten_append, flatten_splitPieces, ih, List.flatten_cons]

/-- A final body that nothing streamed before, past the cap or not. -/
theorem Sound.last (h : s.Sound) (hs : s.streaming = false) (hevents : s.events = []) (past : Bool)
    (status : Int) (headers : Cycle.Headers) (body : Bytes) :
    (if past = true then s
      else { s with completed := true, chunks := [] }.put (.done status headers body)).Sound := by
  split
  · exact h
  · exact h.answer hs hevents rfl rfl rfl rfl rfl (fun hno => (nomatch hno)) rfl (fun _ => Bool.or_true _)
      h.settles

theorem Sound.body (h : s.Sound) {chunk : Bytes} {more : Bool} (hrefuses : s.refuses = false)
    (hturn : s.inTurn (.body chunk more) = true) : (s.body chunk more).Sound := by
  have ⟨hcompleted, hnone⟩ := Sound.refuses_eq_false hrefuses
  have hsettled := h.settled_eq_false hnone
  have hsettles : s.settled = true → s.result.isSome = true := h.settles
  unfold Cycle.body
  split
  · next hs =>
    unfold inTurn at hturn
    rw [hrefuses, hs] at hturn
    exact h.give hs hcompleted hnone (flatten_splitPieces chunk).symm hturn
  · next hs =>
    have hs : s.streaming = false := Bool.eq_false_iff.mpr hs
    have ⟨hsends, hevents⟩ := h.nothing_yet hs hcompleted hsettled
    split
    · exact h
    · next status _ =>
      cases more with
      | true =>
        by_cases hcontent : s.noContent status = true
        · have hdone : ({ s with completed := true, chunks := [], total := 0 }.put
              (.done status s.headers [])).Sound :=
            h.answer hs hevents rfl rfl rfl rfl rfl (fun hno => (nomatch hno)) rfl
              (fun _ => Bool.or_true _) hsettles
          show (if s.noContent status = true then _ else _ : Cycle).Sound
          rw [if_pos hcontent]
          exact hdone
        · -- the switch: what was buffered goes first
          have hstarted := h.streamStart hs hcompleted hnone status ASGI_CREDIT_WINDOW
          show (if s.noContent status = true then _ else _ : Cycle).Sound
          rw [if_neg hcontent]
          refine hstarted.give rfl hcompleted hnone ?_ ?_
          · rw [flatten_flatMap_splitPieces, List.flatten_append, List.flatten_singleton]
          · show (_ || _ || !s.completed && (s.sends.take s.sends.length).all _) = true
            rw [hcompleted, hsends]
            exact Bool.or_true _
      | false =>
        have hchunks : (if chunk.isEmpty = true then s
            else { s with chunks := s.chunks ++ [chunk], total := s.total + chunk.length }).Sound := by
          split
          · exact h
          · exact ⟨h.idle, h.stream, h.running, h.in_order, h.oks, h.order, h.whole, h.result, h.settles⟩
        refine hchunks.last ?_ ?_ _ _ _ _
        · split
          · exact hs
          · exact hs
        · split
          · exact hevents
          · exact hevents

/-- The end of the application. -/
theorem Sound.finish (h : s.Sound) {outcome : Outcome} (hnone : s.result = none)
    (hturn : s.inTurn (.finish outcome) = true) :
    ({ s with
      result := some (s.outcomeResult outcome)
      events := s.events ++ s.farewell outcome } : Cycle).Sound := by
  have hsettled := h.settled_eq_false hnone
  have hresult : some (s.outcomeResult outcome) = some Result.nothing →
      (s.streaming || s.completed) = true := by
    intro heq
    have hnothing := Option.some.inj heq
    unfold outcomeResult at hnothing
    split at hnothing
    · cases hnothing
    · cases hnothing
    · split at hnothing
      · assumption
      · split at hnothing
        · cases hnothing
        · cases hnothing
  unfold farewell
  split
  · next hlast =>
    have ⟨hrest, hgone⟩ := Bool.and_eq_true_iff.mp hlast
    have ⟨hs, hnot⟩ := Bool.and_eq_true_iff.mp hrest
    have hcompleted : s.completed = false := by rwa [Bool.not_eq_true'] at hnot
    have hopen := h.running hs hcompleted hnone
    have hterminal : Event.terminal (if outcome = .returned then .streamEnd else .streamAbort) = true := by
      split
      · rfl
      · rfl
    have hchunk : Event.chunk (if outcome = .returned then .streamEnd else .streamAbort) = [] := by
      split
      · rfl
      · rfl
    refine ⟨fun hidle => (nomatch hs.symm.trans hidle),
      fun _ => ⟨hopen.wellFormed_end hterminal, ?_⟩, fun _ _ hno => (nomatch hno), ?_, h.oks, h.order,
      fun hmem => ?_, hresult, fun hyes => (nomatch hsettled.symm.trans hyes)⟩
    · exact List.append_ne_nil_of_right_ne_nil _ (List.cons_ne_nil _ _)
    · rw [chunkBytes_append, hchunk, List.append_nil]
      exact h.in_order
    · -- a clean end waits for every send
      have hreturned : outcome = .returned := by
        rcases List.mem_append.mp hmem with hmem | hmem
        · exact absurd hmem hopen.no_end
        · have heq := List.mem_singleton.mp hmem
          split at heq
          · assumption
          · cases heq
      have hall : (s.sends.all fun w => w.status != .waiting) = true := by
        have hlater : ((s.farewell outcome).isEmpty || outcome != .returned ||
            s.sends.all fun w => w.status != .waiting) = true := hturn
        unfold farewell at hlater
        rw [if_pos hlast, hreturned] at hlater
        exact hlater
      intro k w hw hwaiting
      have hover := List.all_eq_true.mp hall w (List.mem_iff_getElem?.mpr ⟨k, hw⟩)
      exact absurd hwaiting (bne_iff_ne.mp hover)
  · rw [List.append_nil]
    exact ⟨h.idle, h.stream, fun _ _ hno => (nomatch hno), h.in_order, h.oks, h.order, h.whole, hresult,
      fun hyes => (nomatch hsettled.symm.trans hyes)⟩

/-- The done-callback. -/
theorem Sound.settle (h : s.Sound) {result : Result} (hresult : s.result = some result)
    (hsettled : s.settled = false) :
    ({ s with settled := true, events := s.events ++ s.completion result } : Cycle).Sound := by
  have hsome : s.result.isSome = true := by rw [hresult]; rfl
  unfold completion
  split
  · next hover =>
    rw [List.append_nil]
    refine ⟨fun hs => ?_, h.stream, h.running, h.in_order, h.oks, h.order, h.whole, h.result,
      fun _ => hsome⟩
    -- answered already, at its final body
    have hstreams : s.streaming = false := hs
    have hcompleted : s.completed = true := by rwa [hstreams, Bool.or_false] at hover
    have ⟨hsends, hevents⟩ := h.idle hstreams
    rw [hcompleted, Bool.true_or, if_pos rfl] at hevents
    refine ⟨hsends, ?_⟩
    rw [Bool.or_true, if_pos rfl]
    exact hevents
  · next hnot =>
    have ⟨hcompleted, hs⟩ := Bool.or_eq_false_iff.mp (Bool.eq_false_iff.mpr hnot)
    have ⟨_, hevents⟩ := h.nothing_yet hs hcompleted hsettled
    have hanswered : ∀ e : Event, wellFormed [e] = true → e.chunk = [] → e ≠ .streamEnd →
        ({ s with settled := true, events := s.events ++ [e] } : Cycle).Sound := by
      intro e hwell hchunk hend
      exact h.answer hs hevents rfl rfl rfl hwell hchunk hend (Bool.or_true _) h.result fun _ => hsome
    cases result with
    | answer status headers body => exact hanswered _ rfl rfl fun hno => nomatch hno
    | nothing =>
      have hyes := h.result hresult
      rw [Bool.or_comm] at hyes
      exact absurd hyes hnot
    | error => exact hanswered _ rfl rfl fun hno => nomatch hno
    | cancelled => exact hanswered _ rfl rfl fun hno => nomatch hno

theorem setSend_self {k : Nat} {w : Send} (hw : s.sends[k]? = some w) : s.setSend k w = s := by
  have ⟨hlt, hget⟩ := List.getElem?_eq_some_iff.mp hw
  have hself : s.sends.set k w = s.sends := by
    rw [← hget]
    exact List.set_getElem_self hlt
  unfold setSend
  rw [hself]

/-- Only a stream has sends. -/
theorem Sound.streaming_of_send (h : s.Sound) {k : Nat} {w : Send} (hw : s.sends[k]? = some w) :
    s.streaming = true := by
  cases hs : s.streaming with
  | true => rfl
  | false =>
    rw [(h.idle hs).1] at hw
    cases hw

theorem Sound.wake (h : s.Sound) {k : Nat} {w : Send} (hw : s.sends[k]? = some w)
    (hwaiting : w.status = .waiting) (hturn : s.inTurnAt k w = true) :
    (s.emit k w w.waitsShared w.pieces).Sound := by
  have hhere : (s.setSend k { w with pieces := w.pieces }).Sound := by
    show (s.setSend k w).Sound
    rw [setSend_self hw]
    exact h
  refine hhere.emit (List.getElem?_eq_some_iff.mp hw).1 hwaiting (h.streaming_of_send hw) ?_
  exact turn_cases hturn

theorem Sound.cancel (h : s.Sound) {k : Nat} {w : Send} (hw : s.sends[k]? = some w) :
    (s.setSend k { w with status := .dropped }).Sound := by
  have hk := (List.getElem?_eq_some_iff.mp hw).1
  have hhere : (s.setSend k w).Sound := by
    rw [setSend_self hw]
    exact h
  exact hhere.replace hk rfl rfl
    ⟨fun hno => (nomatch hno), fun hno => (nomatch hno), (hhere.ok hk).out⟩ fun hno => nomatch hno

/-- A step that hands out what it hands out in turn. -/
theorem Sound.step (h : s.Sound) {l : Label} {s' : Cycle} (hnext : s.next l = some s')
    (hturn : s.inTurn l = true) : s'.Sound := by
  -- what the events do not depend on
  have hkeeps : ∀ (status : Option Int) (headers : Cycle.Headers) (gone : Bool) (window shared : Int),
      ({ s with
        status := status
        headers := headers
        disconnected := gone
        window := window
        shared := shared } : Cycle).Sound := fun _ _ _ _ _ =>
    ⟨h.idle, h.stream, h.running, h.in_order, h.oks, h.order, h.whole, h.result, h.settles⟩
  cases l with
  | start status headers =>
    cases hnext
    split
    · exact h
    · exact hkeeps (some status) headers s.disconnected s.window s.shared
  | body chunk more =>
    cases hnext
    split
    · exact h
    · next hrefuses => exact h.body (Bool.eq_false_iff.mpr hrefuses) hturn
  | wake k =>
    cases hw : s.sends[k]? with
    | none =>
      simp only [next, hw] at hnext
      cases hnext
    | some w =>
      simp only [next, hw] at hnext
      simp only [inTurn, hw] at hturn
      split at hnext
      · next hwaiting =>
        cases hnext
        exact h.wake hw hwaiting hturn
      · cases hnext
  | cancel k =>
    cases hw : s.sends[k]? with
    | none =>
      simp only [next, hw] at hnext
      cases hnext
    | some w =>
      simp only [next, hw] at hnext
      split at hnext
      · cases hnext
        exact h.cancel hw
      · cases hnext
  | ack n =>
    cases hnext
    exact hkeeps s.status s.headers s.disconnected _ s.shared
  | others shared =>
    cases hnext
    exact hkeeps s.status s.headers s.disconnected s.window shared
  | disconnect =>
    cases hnext
    exact hkeeps s.status s.headers true s.window s.shared
  | finish outcome =>
    cases hresult : s.result with
    | some result =>
      simp only [next, hresult, Option.isSome_some, if_true] at hnext
      cases hnext
    | none =>
      simp only [next, hresult, Option.isSome_none, Bool.false_eq_true, if_false] at hnext
      cases hnext
      exact h.finish hresult hturn
  | settle =>
    cases hresult : s.result with
    | none =>
      simp only [next, hresult] at hnext
      cases hnext
    | some result =>
      simp only [next, hresult] at hnext
      split at hnext
      · cases hnext
      · next hsettled =>
        cases hnext
        have hstep := h.settle hresult (Bool.eq_false_iff.mpr hsettled)
        rwa [hresult] at hstep

/-! ## Every run -/

/-- Every step of the run that hands anything out does it in turn. -/
def InTurn {head : Bool} (x : (system head).Execution) : Prop :=
  ∀ (k : Nat) (l : Label), x.labels[k]? = some l → (x.state k).inTurn l = true

theorem sound_run {head : Bool} (x : (system head).Execution) (hturn : InTurn x) {k : Nat}
    (hk : k ≤ x.labels.length) : (x.state k).Sound := by
  induction k with
  | zero =>
    rw [x.start]
    exact sound_new head
  | succ k ih =>
    obtain ⟨l, hl⟩ := x.exists_label hk
    exact (ih (Nat.le_of_lt hk)).step (x.steps hl) (hturn k l hl)

/-- A request whose bytes and clean ends come in turn, whatever its application does: one completion or
one stream, whose chunks are the bytes that its sends were given, in order, and nothing behind an end. -/
theorem handed_in_turn {head : Bool} (x : (system head).Execution) (hturn : InTurn x) {k : Nat}
    (hk : k ≤ x.labels.length) : (x.state k).Handed :=
  (sound_run x hturn hk).handed

/-- A stream of two sends, the second of which waits for credit. -/
def waitsInTurn : List Label :=
  [.start 200 [], .body [] true, .body [0x68] true, .others 0, .body [0x69] false, .others 131072, .wake 2,
    .finish .returned, .settle]

theorem waitsInTurn_runs : ((system false).run (new false) waitsInTurn).isSome = true := by decide

theorem handed_in_turn_waits :
    InTurn (.ofRun (system false) waitsInTurn waitsInTurn_runs) ∧
      ((LabelledSystem.Execution.ofRun (system false) waitsInTurn waitsInTurn_runs).state 9).Handed := by
  have hturn : InTurn (.ofRun (system false) waitsInTurn waitsInTurn_runs) := by
    intro k l hl
    have hall : ∀ i : Fin 9, ∀ l' ∈ waitsInTurn[i.val]?,
        ((LabelledSystem.Execution.ofRun (system false) waitsInTurn waitsInTurn_runs).state i).inTurn l' =
          true := by decide
    exact hall ⟨k, (List.getElem?_eq_some_iff.mp hl).1⟩ l hl
  exact ⟨hturn, handed_in_turn _ hturn (by decide)⟩

/-- A chunk waits for the credit of all slots; a final body with no bytes, from another task, does not. -/
def overtaken : List Label :=
  [.start 200 [], .body [] true, .others 0, .body [0x68] true, .others 131072, .body [] false, .wake 1]

theorem overtaken_runs : ((system false).run (new false) overtaken).isSome = true := by decide

theorem not_wellFormed :
    ¬ ∀ (head : Bool) (x : (system head).Execution) (k : Nat), k ≤ x.labels.length →
      wellFormed (x.state k).events = true := by
  intro h
  have hend := h false (.ofRun (system false) overtaken overtaken_runs) overtaken.length (Nat.le_refl _)
  revert hend
  decide

end Cycle

end MojoHttp
