import MojoHttp.Asgi.Credit
import MojoHttp.WebSocket.Frames

/-!
# A WebSocket on the executor (`m0_shim.py`, `_serve_one_ws`)

One socket: its task, the sends that any task makes on it, the credit they wait for, and the events it
hands to the port. A send that waits may look again at any time.

* **`WsSocket.looked_look`** — what a send does when it runs.
* **`WsSocket.Ordered.step`** — every step keeps the order of the events.
* **`WsSocket.socket_orderly`** — so does every run; and once the application has called
  `websocket.close` no send that it makes from then on is handed out.
* **`WsSocket.not_closesLast`** — one that waited since before may be, behind the close.
-/

namespace MojoHttp

/-- `_ws_frame_bytes`: what the loop queues for a message of `n` payload bytes. -/
def wsFrameBytes (n : Nat) : Nat := if n ≤ 125 then n + 2 else if n ≤ 0xFFFF then n + 4 else n + 10

namespace WsSocket

/-- What the socket hands to the port. -/
inductive Event where
  | wsAccept
  | wsReject
  /-- A message, and which of the socket's calls it is. -/
  | wsSend (call opcode : Nat) (payload : Bytes)
  | wsClose (code : Int)
  deriving Repr, DecidableEq

/-- What a call hands out when it has been charged. -/
inductive Message where
  | send (opcode : Nat) (payload : Bytes)
  | close (code : Int)
  deriving Repr, DecidableEq

def Message.event (call : Nat) : Message → Event
  | .send opcode payload => .wsSend call opcode payload
  | .close code => .wsClose code

/-- A call that has come to `_ws_spend`. -/
structure Call where
  message : Message
  nbytes : Nat
  waits : Executor.Waits
  deriving Repr, DecidableEq

end WsSocket

open WsSocket Executor

structure WsSocket where
  accepted : Bool
  closed : Bool
  /-- An accept or a reject has reached the port. -/
  resolved : Bool
  /-- `_m0_disconnected` of the socket's task. -/
  disconnected : Bool
  finished : Bool
  /-- The slot's credit, once there is a window. -/
  window : Option Int
  /-- The credit that all slots share. -/
  shared : Int
  calls : List Call
  events : List Event

namespace WsSocket

def empty : WsSocket where
  accepted := false
  closed := false
  resolved := false
  disconnected := false
  finished := false
  window := none
  shared := ASGI_TOTAL_WINDOW
  calls := []
  events := []

/-- `_task_gone(owner)`. -/
def gone (s : WsSocket) : Bool := s.disconnected || s.finished

def setCall (s : WsSocket) (k : Nat) (c : Call) (waits : Executor.Waits) : WsSocket :=
  { s with calls := s.calls.set k { c with waits := waits } }

def put (s : WsSocket) (event : Event) : WsSocket := { s with events := s.events ++ [event] }

/-- Behind `_ws_spend`: the client is asked after once more. -/
def through (s : WsSocket) (k : Nat) (c : Call) : WsSocket :=
  if s.gone then s.setCall k c .over else (s.setCall k c .over).put (c.message.event k)

/-- The second loop of `_ws_spend`, and what follows it. -/
def lookShared (s : WsSocket) (k : Nat) (c : Call) : WsSocket :=
  if s.shared < c.nbytes then
    if s.gone then s.setCall k c .over else s.setCall k c .shared
  else if s.gone then s.setCall k c .over
  else
    { s with
      window := s.window.map (· - (c.nbytes : Int))
      shared := s.shared - c.nbytes }.through k c

/-- What a call does when it runs, up to its next wait. -/
def look (s : WsSocket) (k : Nat) (c : Call) : WsSocket :=
  match c.waits with
  | .slot =>
    match s.window with
    | none => s.through k c
    | some credit =>
      if credit < c.nbytes then
        if s.gone then s.setCall k c .over else s.setCall k c .slot
      else s.lookShared k c
  | .shared => s.lookShared k c
  | .over => s

/-- A call comes to `_ws_spend`. -/
def spend (s : WsSocket) (message : Message) (nbytes : Nat) : WsSocket :=
  let c : Call := ⟨message, min nbytes ASGI_CREDIT_WINDOW, .slot⟩
  { s with calls := s.calls ++ [c] }.look s.calls.length c

/-- The `finally` of the socket's task. -/
def farewell (s : WsSocket) (failed : Bool) : List Event :=
  if s.gone then []
  else if s.accepted && !s.closed then [.wsClose (if failed then 1011 else 1000)]
  else if !s.resolved then [.wsReject]
  else []

inductive Label where
  /-- `websocket.accept`, and so on: a call of `send` by any task. -/
  | accept
  | send (opcode : Nat) (payload : Bytes)
  | close (code : Int)
  | wake (call : Nat)
  /-- An acknowledgement for the socket's slot. -/
  | ack (n : Nat)
  /-- What the other slots leave of the shared window. -/
  | others (shared : Int)
  | disconnect
  /-- The application returns or raises. -/
  | finish (failed : Bool)
  deriving Repr, DecidableEq

def next (s : WsSocket) : Label → Option WsSocket
  | .accept =>
    -- refused with `ClientDisconnected`, or `RuntimeError` behind a close
    if s.gone || s.closed then some s
    else
      some ({ s with
        accepted := true
        window := some ASGI_CREDIT_WINDOW
        resolved := true }.put .wsAccept)
  | .send opcode payload =>
    if s.gone || s.closed || !s.accepted then some s
    else some (s.spend (.send opcode payload) (wsFrameBytes payload.length))
  | .close code =>
    if s.gone || s.closed then some s
    else
      let s := { s with closed := true }
      if s.accepted then some (s.spend (.close code) (wsFrameBytes 2))
      else some ({ s with resolved := true }.put .wsReject)
  | .wake k =>
    match s.calls[k]? with
    | none => none
    | some c => some (s.look k c)
  | .ack n =>
    some { s with window := s.window.map fun credit => min (credit + n) (ASGI_CREDIT_WINDOW : Int) }
  | .others shared => some { s with shared := shared }
  | .disconnect => some { s with disconnected := true }
  | .finish failed =>
    if s.finished then none
    else some { s with finished := true, events := s.events ++ s.farewell failed }

def system : LabelledSystem WsSocket Label := ⟨empty, next⟩

/-! ## What the events are to be -/

def Event.isClose : Event → Bool
  | .wsClose _ => true
  | _ => false

def Event.isSend : Event → Bool
  | .wsSend .. => true
  | _ => false

/-- No message comes before the accept. -/
def acceptsFirst : List Event → Bool
  | [] => true
  | .wsAccept :: _ => true
  | .wsSend .. :: _ => false
  | _ :: events => acceptsFirst events

/-- No message comes behind a close. -/
def closesLast : List Event → Bool
  | [] => true
  | .wsClose _ :: events => events.all fun e => !e.isSend
  | _ :: events => closesLast events

/-- The handshake has been answered. -/
def Answered (events : List Event) : Prop := .wsAccept ∈ events ∨ .wsReject ∈ events

theorem acceptsFirst_append {events : List Event} (more : List Event) (h : .wsAccept ∈ events)
    (hfirst : acceptsFirst events = true) : acceptsFirst (events ++ more) = true := by
  induction events with
  | nil => cases h
  | cons e events ih =>
    cases e with
    | wsAccept => rfl
    | wsSend call opcode payload => cases hfirst
    | wsReject => exact ih (by simpa using h) hfirst
    | wsClose code => exact ih (by simpa using h) hfirst

/-- Anything but a message may come at any time. -/
theorem acceptsFirst_append_singleton {events : List Event} {e : Event} (hsend : e.isSend = false)
    (hfirst : acceptsFirst events = true) : acceptsFirst (events ++ [e]) = true := by
  induction events with
  | nil =>
    cases e with
    | wsSend call opcode payload => cases hsend
    | wsAccept => rfl
    | wsReject => rfl
    | wsClose code => rfl
  | cons f events ih =>
    cases f with
    | wsAccept => rfl
    | wsSend call opcode payload => cases hfirst
    | wsReject => exact ih hfirst
    | wsClose code => exact ih hfirst

/-! ## What a call does -/

variable {s : WsSocket}

/-- What a call leaves: it waits on, or is over, or hands its event out and is over. -/
inductive Looked (s : WsSocket) (k : Nat) (c : Call) : WsSocket → Prop where
  | waits (window : Option Int) (shared : Int) (waits : Executor.Waits)
      (hover : c.waits = .over → waits = .over) :
      Looked s k c
        { s with
          window := window
          shared := shared
          calls := s.calls.set k { c with waits := waits } }
  | puts (window : Option Int) (shared : Int) (hwaits : c.waits ≠ .over) (hlive : s.gone = false) :
      Looked s k c
        { s with
          window := window
          shared := shared
          calls := s.calls.set k { c with waits := .over }
          events := s.events ++ [c.message.event k] }

theorem looked_setCall (s : WsSocket) (k : Nat) {c : Call} (hwaits : c.waits ≠ .over)
    (waits : Executor.Waits) : Looked s k c (s.setCall k c waits) :=
  .waits s.window s.shared waits fun h => absurd h hwaits

theorem looked_through (s : WsSocket) (k : Nat) {c : Call} (hwaits : c.waits ≠ .over)
    (window : Option Int) (shared : Int) :
    Looked s k c ({ s with window := window, shared := shared }.through k c) := by
  unfold through
  split
  · exact .waits window shared .over fun _ => rfl
  · next hlive => exact .puts window shared hwaits (Bool.eq_false_iff.mpr hlive)

theorem looked_lookShared (s : WsSocket) (k : Nat) {c : Call} (hwaits : c.waits ≠ .over) :
    Looked s k c (s.lookShared k c) := by
  unfold lookShared
  split
  · split
    · exact looked_setCall s k hwaits .over
    · exact looked_setCall s k hwaits .shared
  · split
    · exact looked_setCall s k hwaits .over
    · exact looked_through s k hwaits _ _

/-- **A call that runs waits on, or is over**; and it hands its event out only as it ends, and to a
client that is there. -/
theorem looked_look {k : Nat} {c : Call} (hk : s.calls[k]? = some c) : Looked s k c (s.look k c) := by
  unfold look
  split
  · next hslot =>
    have hwaits : c.waits ≠ .over := by rw [hslot]; exact Executor.Waits.noConfusion
    split
    · exact looked_through s k hwaits s.window s.shared
    · split
      · split
        · exact looked_setCall s k hwaits .over
        · exact looked_setCall s k hwaits .slot
      · exact looked_lookShared s k hwaits
  · next hshared =>
    exact looked_lookShared s k (by rw [hshared]; exact Executor.Waits.noConfusion)
  · next hover =>
    -- it is over already
    have ⟨hlt, hget⟩ := List.getElem?_eq_some_iff.mp hk
    have hsame : s.calls.set k { c with waits := .over } = s.calls := by
      rw [← hover, ← hget]
      exact List.set_getElem_self hlt
    have hlooked := Looked.waits (s := s) (k := k) (c := c) s.window s.shared .over fun _ => rfl
    rwa [hsame] at hlooked

/-! ## What every step keeps -/

def Event.isReject : Event → Bool
  | .wsReject => true
  | _ => false

/-- A close that has not been handed out. -/
def Call.closing (c : Call) : Bool :=
  c.waits != .over && match c.message with | .close _ => true | .send .. => false

/-- The closes handed out, and those to come. -/
def closes (s : WsSocket) : Nat := s.events.countP Event.isClose + s.calls.countP Call.closing

structure Ordered (s : WsSocket) : Prop where
  closes_le : s.closes ≤ 1
  /-- There is none before the socket is closed, by the application or with its task. -/
  not_closing : s.closed = false → s.finished = false → s.closes = 0
  accepts_first : acceptsFirst s.events = true
  accepted_iff : s.accepted = true ↔ .wsAccept ∈ s.events
  accepted_resolved : s.accepted = true → s.resolved = true
  /-- A socket that was rejected is closed to its application. -/
  rejected : .wsReject ∈ s.events → s.accepted = false ∧
    (s.finished = false → s.closed = true ∧ s.resolved = true)
  rejects_le : s.events.countP Event.isReject ≤ 1
  calls_accepted : s.calls ≠ [] → s.accepted = true
  /-- Each message is one of the calls. -/
  calls : ∀ call opcode payload, .wsSend call opcode payload ∈ s.events → call < s.calls.length
  answered : s.resolved = true → Answered s.events

/-- Later events answer no less. -/
theorem Answered.append {events : List Event} (h : Answered events) (more : List Event) :
    Answered (events ++ more) :=
  h.imp (List.mem_append_left more) (List.mem_append_left more)

theorem ordered_empty : Ordered empty where
  closes_le := by decide
  not_closing _ _ := rfl
  accepts_first := rfl
  accepted_iff := by decide
  accepted_resolved h := nomatch h
  rejected h := nomatch h
  rejects_le := by decide
  calls_accepted h := absurd rfl h
  calls _ _ _ h := nomatch h
  answered h := nomatch h

namespace Ordered

/-- A call runs. -/
theorem looked (h : s.Ordered) {s' : WsSocket} {k : Nat} {c : Call} (hk : s.calls[k]? = some c)
    (hl : Looked s k c s') : s'.Ordered := by
  have ⟨hlt, hget⟩ := List.getElem?_eq_some_iff.mp hk
  have haccepted : s.accepted = true := h.calls_accepted (List.ne_nil_of_length_pos (by omega))
  have hcount := List.boole_getElem_le_countP (p := Call.closing) hlt
  rw [hget] at hcount
  have hle := h.closes_le
  have hzero := h.not_closing
  unfold closes at hle hzero
  cases hl with
  | waits window shared waits hover =>
    -- a close to come is still to come, or is not
    have hfewer : (s.calls.set k { c with waits := waits }).countP Call.closing ≤
        s.calls.countP Call.closing := by
      have himp : Call.closing { c with waits := waits } = true → c.closing = true := by
        intro hclosing
        have ⟨hwaits, hclose⟩ := (Bool.and_eq_true ..).mp hclosing
        refine (Bool.and_eq_true ..).mpr ⟨?_, hclose⟩
        apply bne_iff_ne.mpr
        exact fun heq => bne_iff_ne.mp hwaits (hover heq)
      rw [List.countP_set hlt, hget]
      cases hnew : Call.closing { c with waits := waits } with
      | false =>
        rw [if_neg Bool.false_ne_true]
        omega
      | true =>
        rw [himp hnew, if_pos rfl] at hcount
        rw [himp hnew, if_pos rfl]
        omega
    refine { h with
      closes_le := ?_, not_closing := fun hclosed hfinished => ?_, calls_accepted := fun _ => haccepted
      calls := fun call opcode payload hmem => ?_ }
    · show s.events.countP Event.isClose + (s.calls.set k { c with waits := waits }).countP _ ≤ 1
      omega
    · have hnone := hzero hclosed hfinished
      show s.events.countP Event.isClose + (s.calls.set k { c with waits := waits }).countP _ = 0
      omega
    · show call < (s.calls.set k _).length
      rw [List.length_set]
      exact h.calls call opcode payload hmem
  | puts window shared hwaits hlive =>
    -- a close to come is handed out
    have hmoves : (s.events ++ [c.message.event k]).countP Event.isClose +
        (s.calls.set k { c with waits := .over }).countP Call.closing =
        s.events.countP Event.isClose + s.calls.countP Call.closing := by
      have hclosing : c.closing = (c.message.event k).isClose := by
        have hne : (c.waits != .over) = true := bne_iff_ne.mpr hwaits
        unfold Call.closing
        rw [hne]
        cases c.message <;> rfl
      have hover : Call.closing { c with waits := .over } = false := rfl
      rw [List.countP_append, List.countP_singleton, List.countP_set hlt, hget, hover, ← hclosing,
        if_neg Bool.false_ne_true]
      omega
    have hsend : ∀ {e}, e ∈ s.events ++ [c.message.event k] →
        e ∈ s.events ∨ e = c.message.event k := by
      intro e he
      rcases List.mem_append.mp he with hold | hnew
      · exact Or.inl hold
      · exact Or.inr (List.mem_singleton.mp hnew)
    have hreject : (c.message.event k).isReject = false := by cases c.message <;> rfl
    refine ⟨?_, fun hclosed hfinished => ?_, ?_, ?_, h.accepted_resolved, fun hmem => ?_, ?_,
      fun _ => haccepted, fun call opcode payload hmem => ?_,
      fun hresolved => (h.answered hresolved).append _⟩
    · unfold closes
      rw [hmoves]
      exact hle
    · unfold closes
      rw [hmoves]
      exact hzero hclosed hfinished
    · exact acceptsFirst_append _ (h.accepted_iff.mp haccepted) h.accepts_first
    · exact ⟨fun _ => List.mem_append_left _ (h.accepted_iff.mp haccepted), fun _ => haccepted⟩
    · rcases hsend hmem with hold | hnew
      · exact h.rejected hold
      · rw [← hnew] at hreject
        cases hreject
    · show (s.events ++ [c.message.event k]).countP Event.isReject ≤ 1
      rw [List.countP_append, List.countP_singleton, hreject]
      exact h.rejects_le
    · show call < (s.calls.set k _).length
      rw [List.length_set]
      rcases hsend hmem with hold | hnew
      · exact h.calls call opcode payload hold
      · cases hmessage : c.message with
        | close code =>
          rw [hmessage] at hnew
          cases hnew
        | send opcode' payload' =>
          rw [hmessage] at hnew
          have heq : call = k := (Event.wsSend.inj hnew).1
          omega

/-- A call comes to its charge: not a close, or the application's one close. -/
theorem comes (h : s.Ordered) (haccepted : s.accepted = true) (c : Call)
    (hclose : c.closing = true → s.closes = 0 ∧ s.closed = true) :
    ({ s with calls := s.calls ++ [c] } : WsSocket).Ordered := by
  have hle := h.closes_le
  unfold closes at hle hclose
  have hcount : (s.calls ++ [c]).countP Call.closing =
      s.calls.countP Call.closing + if c.closing then 1 else 0 := by
    rw [List.countP_append, List.countP_singleton]
  refine { h with
    closes_le := ?_, not_closing := fun hclosed hfinished => ?_
    calls_accepted := fun _ => haccepted, calls := fun call opcode payload hmem => ?_ }
  · show s.events.countP Event.isClose + (s.calls ++ [c]).countP Call.closing ≤ 1
    rw [hcount]
    split
    · next hclosing =>
      have hnone := (hclose hclosing).1
      omega
    · omega
  · show s.events.countP Event.isClose + (s.calls ++ [c]).countP Call.closing = 0
    have hnone := h.not_closing hclosed hfinished
    unfold closes at hnone
    rw [hcount]
    split
    · next hclosing =>
      have hnot := (hclose hclosing).2
      rw [hclosed] at hnot
      cases hnot
    · omega
  · have hlt := h.calls call opcode payload hmem
    show call < (s.calls ++ [c]).length
    rw [List.length_append]
    omega

theorem spend (h : s.Ordered) (haccepted : s.accepted = true) (message : Message) (nbytes : Nat)
    (hclose : ∀ code, message = .close code → s.closes = 0 ∧ s.closed = true) :
    (s.spend message nbytes).Ordered := by
  have hcomes := h.comes haccepted ⟨message, min nbytes ASGI_CREDIT_WINDOW, .slot⟩ fun hclosing => by
    cases message with
    | send opcode payload => cases hclosing
    | close code => exact hclose code rfl
  exact hcomes.looked List.getElem?_concat_length (looked_look List.getElem?_concat_length)

/-- The accept, which a socket that is closed or rejected does not make. -/
theorem accept (h : s.Ordered) (hlive : s.gone = false) (hopen : s.closed = false) :
    ({ s with
      accepted := true
      window := some ASGI_CREDIT_WINDOW
      resolved := true }.put .wsAccept).Ordered := by
  have ⟨_, hfinished⟩ := Bool.or_eq_false_iff.mp hlive
  refine ⟨?_, fun hclosed hfinished => ?_, ?_, ?_, fun _ => rfl, fun hmem => ?_, ?_, fun _ => rfl,
    fun call opcode payload hmem => ?_, fun _ => Or.inl List.mem_concat_self⟩
  · show (s.events ++ [Event.wsAccept]).countP Event.isClose + s.calls.countP Call.closing ≤ 1
    rw [List.countP_append]
    exact h.closes_le
  · show (s.events ++ [Event.wsAccept]).countP Event.isClose + s.calls.countP Call.closing = 0
    rw [List.countP_append]
    exact h.not_closing hclosed hfinished
  · exact acceptsFirst_append_singleton rfl h.accepts_first
  · exact ⟨fun _ => List.mem_append_right _ (List.mem_singleton.mpr rfl), fun _ => rfl⟩
  · -- rejected, it would be closed
    rcases List.mem_append.mp hmem with hold | hnew
    · have hclosed := ((h.rejected hold).2 hfinished).1
      rw [hopen] at hclosed
      cases hclosed
    · cases List.mem_singleton.mp hnew
  · show (s.events ++ [Event.wsAccept]).countP Event.isReject ≤ 1
    rw [List.countP_append]
    exact h.rejects_le
  · rcases List.mem_append.mp hmem with hold | hnew
    · exact h.calls call opcode payload hold
    · cases List.mem_singleton.mp hnew

/-- A reject, of a socket that has not been answered; its application gets nothing more through. -/
theorem reject (h : s.Ordered) (haccepted : s.accepted = false) (hnone : .wsReject ∉ s.events)
    {closed resolved finished : Bool}
    (hover : finished = false → closed = true ∧ resolved = true) :
    ({ s with
      closed := closed
      resolved := resolved
      finished := finished
      events := s.events ++ [Event.wsReject] } : WsSocket).Ordered := by
  have hmem : ∀ {e : Event}, e ∈ s.events ++ [Event.wsReject] → e ≠ .wsReject → e ∈ s.events := by
    intro e he hne
    rcases List.mem_append.mp he with hold | hnew
    · exact hold
    · exact absurd (List.mem_singleton.mp hnew) hne
  refine ⟨?_, fun hclosed hfinished => ?_, ?_, ?_, fun hyes => ?_, fun _ => ⟨haccepted, hover⟩, ?_,
    h.calls_accepted, fun call opcode payload hsend => h.calls call opcode payload (hmem hsend nofun),
    fun _ => Or.inr List.mem_concat_self⟩
  · show (s.events ++ [Event.wsReject]).countP Event.isClose + s.calls.countP Call.closing ≤ 1
    rw [List.countP_append]
    exact h.closes_le
  · rw [(hover hfinished).1] at hclosed
    cases hclosed
  · exact acceptsFirst_append_singleton rfl h.accepts_first
  · exact ⟨fun hyes => List.mem_append_left _ (h.accepted_iff.mp hyes),
      fun hin => h.accepted_iff.mpr (hmem hin nofun)⟩
  · rw [haccepted] at hyes
    cases hyes
  · show (s.events ++ [Event.wsReject]).countP Event.isReject ≤ 1
    have hzero : s.events.countP Event.isReject = 0 := by
      apply List.countP_eq_zero.mpr
      intro e he hreject
      cases e with
      | wsReject => exact hnone he
      | _ => cases hreject
    rw [List.countP_append, hzero]
    exact Nat.le_refl 1

/-- The close that the task's end makes for an application that made none. -/
theorem farewellClose (h : s.Ordered) (hopen : s.closed = false) (hrunning : s.finished = false)
    (code : Int) :
    ({ s with finished := true, events := s.events ++ [Event.wsClose code] } : WsSocket).Ordered := by
  have hmem : ∀ {e : Event}, e ∈ s.events ++ [Event.wsClose code] → e ≠ .wsClose code → e ∈ s.events := by
    intro e he hne
    rcases List.mem_append.mp he with hold | hnew
    · exact hold
    · exact absurd (List.mem_singleton.mp hnew) hne
  refine ⟨?_, fun _ hfinished => (nomatch hfinished), ?_, ?_, h.accepted_resolved, fun hreject => ?_, ?_,
    h.calls_accepted, fun call opcode payload hsend => h.calls call opcode payload (hmem hsend nofun),
    fun hresolved => (h.answered hresolved).append _⟩
  · have hnone := h.not_closing hopen hrunning
    unfold closes at hnone ⊢
    rw [List.countP_append, List.countP_singleton]
    show s.events.countP Event.isClose + 1 + s.calls.countP Call.closing ≤ 1
    omega
  · exact acceptsFirst_append_singleton rfl h.accepts_first
  · exact ⟨fun hyes => List.mem_append_left _ (h.accepted_iff.mp hyes),
      fun hin => h.accepted_iff.mpr (hmem hin nofun)⟩
  · exact ⟨(h.rejected (hmem hreject nofun)).1, fun hfinished => nomatch hfinished⟩
  · show (s.events ++ [Event.wsClose code]).countP Event.isReject ≤ 1
    rw [List.countP_append]
    exact h.rejects_le

/-- **Every step keeps the order of the events.** -/
theorem step (h : s.Ordered) {s' : WsSocket} {l : Label} (hnext : s.next l = some s') :
    s'.Ordered := by
  cases l with
  | accept =>
    simp only [next] at hnext
    split at hnext
    · rw [← Option.some.inj hnext]
      exact h
    · next hnot =>
      rw [Bool.or_eq_true, not_or, Bool.not_eq_true, Bool.not_eq_true] at hnot
      rw [← Option.some.inj hnext]
      exact h.accept hnot.1 hnot.2
  | send opcode payload =>
    simp only [next] at hnext
    split at hnext
    · rw [← Option.some.inj hnext]
      exact h
    · next hnot =>
      rw [Bool.or_eq_true, not_or, Bool.not_eq_true', Bool.not_eq_false] at hnot
      rw [← Option.some.inj hnext]
      exact h.spend hnot.2 _ _ fun _ heq => nomatch heq
  | close code =>
    simp only [next] at hnext
    split at hnext
    · rw [← Option.some.inj hnext]
      exact h
    · next hnot =>
      rw [Bool.or_eq_true, not_or, Bool.not_eq_true, Bool.not_eq_true] at hnot
      have ⟨_, hrunning⟩ := Bool.or_eq_false_iff.mp hnot.1
      have hnone := h.not_closing hnot.2 hrunning
      split at hnext
      · next haccepted =>
        -- the close is to come
        have hclosed : ({ s with closed := true } : WsSocket).Ordered :=
          { h with
            not_closing := fun hopen => nomatch hopen
            rejected := fun hmem => ⟨(h.rejected hmem).1, fun hf => ⟨rfl, ((h.rejected hmem).2 hf).2⟩⟩ }
        rw [← Option.some.inj hnext]
        exact hclosed.spend haccepted _ _ fun _ _ => ⟨hnone, rfl⟩
      · next hnot' =>
        rw [← Option.some.inj hnext]
        refine h.reject (Bool.eq_false_iff.mpr hnot') (fun hmem => ?_) fun _ => ⟨rfl, rfl⟩
        have hclosed := ((h.rejected hmem).2 hrunning).1
        rw [hnot.2] at hclosed
        cases hclosed
  | wake k =>
    simp only [next] at hnext
    split at hnext
    · cases hnext
    · next c hk =>
      rw [← Option.some.inj hnext]
      exact h.looked hk (looked_look hk)
  | ack n =>
    rw [← Option.some.inj hnext]
    exact { h with }
  | others shared =>
    rw [← Option.some.inj hnext]
    exact { h with }
  | disconnect =>
    rw [← Option.some.inj hnext]
    exact { h with }
  | finish failed =>
    simp only [next] at hnext
    split at hnext
    · cases hnext
    · next hrunning =>
      have hrunning' : s.finished = false := Bool.eq_false_iff.mpr hrunning
      rw [← Option.some.inj hnext]
      have hquiet : ({ s with finished := true, events := s.events ++ [] } : WsSocket).Ordered := by
        rw [List.append_nil]
        exact { h with
          not_closing := fun _ hfinished => nomatch hfinished
          rejected := fun hmem => ⟨(h.rejected hmem).1, fun hfinished => nomatch hfinished⟩ }
      unfold farewell
      split
      · exact hquiet
      · split
        · next hopen =>
          have ⟨_, hopen'⟩ := (Bool.and_eq_true ..).mp hopen
          rw [Bool.not_eq_true'] at hopen'
          exact h.farewellClose hopen' hrunning' _
        · split
          · next hresolved =>
            rw [Bool.not_eq_true'] at hresolved
            refine h.reject (Bool.eq_false_iff.mpr fun hyes => ?_) (fun hmem => ?_)
              fun hfinished => nomatch hfinished
            · have hres := h.accepted_resolved hyes
              rw [hresolved] at hres
              cases hres
            · have hres := ((h.rejected hmem).2 hrunning').2
              rw [hresolved] at hres
              cases hres
          · exact hquiet

end Ordered

/-! ## A run -/

theorem Looked.calls_length {k : Nat} {c : Call} {s' : WsSocket} (hl : Looked s k c s') :
    s'.calls.length = s.calls.length := by
  cases hl with
  | waits window shared waits hover => exact List.length_set
  | puts window shared hwaits hlive => exact List.length_set

theorem Looked.closed {k : Nat} {c : Call} {s' : WsSocket} (hl : Looked s k c s') :
    s'.closed = s.closed := by
  cases hl with
  | waits window shared waits hover => rfl
  | puts window shared hwaits hlive => rfl

/-- **No call comes to its charge once the application has closed the socket**, and it stays closed. -/
theorem closed_step {s' : WsSocket} {l : Label} (hclosed : s.closed = true)
    (hnext : s.next l = some s') : s'.closed = true ∧ s'.calls.length = s.calls.length := by
  cases l with
  | accept =>
    simp only [next, hclosed, Bool.or_true, if_true] at hnext
    rw [← Option.some.inj hnext]
    exact ⟨hclosed, rfl⟩
  | send opcode payload =>
    simp only [next, hclosed, Bool.or_true, Bool.true_or, if_true] at hnext
    rw [← Option.some.inj hnext]
    exact ⟨hclosed, rfl⟩
  | close code =>
    simp only [next, hclosed, Bool.or_true, if_true] at hnext
    rw [← Option.some.inj hnext]
    exact ⟨hclosed, rfl⟩
  | wake k =>
    simp only [next] at hnext
    split at hnext
    · cases hnext
    · next c hk =>
      rw [← Option.some.inj hnext]
      have hl := looked_look hk
      exact ⟨hl.closed.trans hclosed, hl.calls_length⟩
  | ack n =>
    rw [← Option.some.inj hnext]
    exact ⟨hclosed, rfl⟩
  | others shared =>
    rw [← Option.some.inj hnext]
    exact ⟨hclosed, rfl⟩
  | disconnect =>
    rw [← Option.some.inj hnext]
    exact ⟨hclosed, rfl⟩
  | finish failed =>
    simp only [next] at hnext
    split at hnext
    · cases hnext
    · rw [← Option.some.inj hnext]
      exact ⟨hclosed, rfl⟩

/-- The task's end answers the handshake, unless the client has gone. -/
theorem Ordered.answered_finish {s' : WsSocket} {failed : Bool} (h : s.Ordered)
    (hnext : s.next (.finish failed) = some s') : s.disconnected = true ∨ Answered s'.events := by
  simp only [next] at hnext
  split at hnext
  · cases hnext
  · next hrunning =>
    rw [← Option.some.inj hnext]
    cases hres : s.resolved with
    | true => exact Or.inr ((h.answered hres).append _)
    | false =>
      have haccepted : s.accepted = false := Bool.eq_false_iff.mpr fun hyes => by
        have hyes' := h.accepted_resolved hyes
        rw [hres] at hyes'
        cases hyes'
      cases hgone : s.gone with
      | true =>
        -- its task is still running, so it is the client that has gone
        have hor := (Bool.or_eq_true ..).mp hgone
        exact Or.inl (hor.resolve_right hrunning)
      | false =>
        refine Or.inr (Or.inr (List.mem_append_right _ ?_))
        unfold farewell
        rw [hgone, haccepted, hres]
        exact List.mem_singleton.mpr rfl

/-- What the events of a socket are at every instant. -/
structure Orderly (s : WsSocket) : Prop where
  one_close : s.events.countP Event.isClose ≤ 1
  accepts_first : acceptsFirst s.events = true
  one_answer : ¬ (.wsAccept ∈ s.events ∧ .wsReject ∈ s.events)
  one_reject : s.events.countP Event.isReject ≤ 1

theorem Ordered.orderly (h : s.Ordered) : s.Orderly where
  one_close := Nat.le_trans (Nat.le_add_right ..) h.closes_le
  accepts_first := h.accepts_first
  one_answer := fun ⟨haccept, hreject⟩ => by
    have hnot := (h.rejected hreject).1
    rw [h.accepted_iff.mpr haccept] at hnot
    cases hnot
  one_reject := h.rejects_le

/-- **The events of a socket, in every run**: in order at every instant; the handshake answered by the
end of the task, unless the client had gone; and no message but those of calls that had come to their
charge by the time the application closed the socket. -/
theorem socket_orderly (x : system.Execution) :
    (∀ k ≤ x.labels.length, (x.state k).Orderly) ∧
      (∀ k failed, x.labels[k]? = some (.finish failed) →
        (x.state k).disconnected = true ∨ Answered (x.state (k + 1)).events) ∧
      (∀ i j, i ≤ j → j ≤ x.labels.length → (x.state i).closed = true →
        ∀ call opcode payload, .wsSend call opcode payload ∈ (x.state j).events →
          call < (x.state i).calls.length) := by
  have hord := x.invariant (I := Ordered) ordered_empty fun _ _ _ h hnext => h.step hnext
  refine ⟨fun k hk => (hord k hk).orderly, fun k failed hl => ?_, ?_⟩
  · exact (hord k (Nat.le_of_lt (x.lt_length hl))).answered_finish (x.steps hl)
  · intro i j hij hj hclosed call opcode payload hmem
    -- the calls are as many as when the socket was closed
    have hkept : (x.state j).closed = true ∧
        (x.state j).calls.length = (x.state i).calls.length := by
      refine LabelledSystem.Execution.stays
        (P := fun s => s.closed = true ∧ s.calls.length = (x.state i).calls.length) hij hj
        ⟨hclosed, rfl⟩ fun k l _ _ hl h => ?_
      have ⟨hstill, hlen⟩ := closed_step h.1 (x.steps hl)
      exact ⟨hstill, hlen.trans h.2⟩
    rw [← hkept.2]
    exact (hord j hj).calls call opcode payload hmem

/-- A message waits for the shared window, and a close overtakes it. -/
def overtaken : List Label :=
  [.accept, .others 0, .send WS_OP_TEXT [0x68], .others 131072, .close 1000, .wake 0]

theorem overtaken_runs : (system.run empty overtaken).isSome = true := by decide

/-- A client leaves before its handshake is answered. -/
def unanswered : List Label := [.disconnect, .finish false]

theorem unanswered_runs : (system.run empty unanswered).isSome = true := by decide

/-- An application accepts twice. -/
def acceptedTwice : List Label := [.accept, .accept]

theorem acceptedTwice_runs : (system.run empty acceptedTwice).isSome = true := by decide

/-- A message may come behind the close, a socket end with neither an accept nor a reject, and an accept
be handed out twice. -/
theorem not_closesLast :
    (¬ ∀ x : system.Execution, ∀ k ≤ x.labels.length, closesLast (x.state k).events = true) ∧
      (¬ ∀ x : system.Execution, ∀ k ≤ x.labels.length, (x.state k).finished = true →
        Answered (x.state k).events) ∧
      ¬ ∀ x : system.Execution, ∀ k ≤ x.labels.length, (x.state k).events.count .wsAccept ≤ 1 := by
  refine ⟨fun h => ?_, fun h => ?_, fun h => ?_⟩
  · have hend := h (.ofRun system overtaken overtaken_runs) overtaken.length (Nat.le_refl _)
    exact absurd hend (by decide)
  · have hend := h (.ofRun system unanswered unanswered_runs) unanswered.length (Nat.le_refl _)
      (by decide)
    have hnone : ((LabelledSystem.Execution.ofRun system unanswered unanswered_runs).state
        unanswered.length).events = [] := by decide
    rw [hnone] at hend
    exact hend.elim List.not_mem_nil List.not_mem_nil
  · have hend := h (.ofRun system acceptedTwice acceptedTwice_runs) acceptedTwice.length (Nat.le_refl _)
    exact absurd hend (by decide)

end WsSocket

end MojoHttp
