import Mathlib.Logic.Function.Basic
import Mathlib.Tactic.Common

/-!
# The comment behind an event (`_owe_flush`, `_flush_streams`, `_stream_idle`)

A reader that holds an event's last piece is given another: a comment, due an interval behind the
last event of a burst. One one-shot timer of the loop serves every slot.

* **`Loop`** — the slots, the timer, and the comments written, each with its slot as it stood.
* **`oweFlush`**, **`flushStreams`** — who stamps a slot, and what the timer's firing does.
* **`drainSlot`**, **`respond`**, **`afterSend`** — the frames between them, stream ends and closes.
* **`Base`**, **`Clocked`** — what every slot keeps, and what the timer keeps of the slots' dues.

A call reads the clock once, and `lag` is how much of it passes before the call has ended. What
the kernel and zstd answer is an argument of the call.
-/

namespace MojoHttp.FlushTimer

/-! ## The loop -/

/-- `ConnectionState`: between the frames of a stream, sending, or none of these. -/
inductive Kind where
  | request
  | responding
  | streamingSse
  | streamingWs
  deriving DecidableEq

/-- A slot, with what is still unsent of its response or frame. -/
structure Slot where
  attached : Bool
  kind : Kind
  unsent : Nat
  sse : Bool
  ws : Bool
  /-- Its socket has sent its Close. -/
  closing : Bool
  /-- `slot_channel_stream`. -/
  channel : Bool
  chunked : Bool
  zstd : Bool
  shouldClose : Bool
  closeAfterStream : Bool
  /-- `slot_flush_due`: 0 for none. -/
  due : Int
  deriving DecidableEq

def Slot.free : Slot :=
  ⟨false, .request, 0, false, false, false, false, false, false, false, false, 0⟩

structure Config where
  maxConns : Nat
  sseFlushMs : Int
  idleTimeout : Int

/-- The timer is set to fire at `base`, counted from the clock its call has read, and `lag` later
by the time that passed before it was set. -/
structure Timer where
  base : Int
  lag : Nat

structure Loop where
  slots : Nat → Slot
  flushArmed : Bool
  timer : Option Timer
  clock : Int
  comments : List Slot

def Loop.init (clock : Int) : Loop := ⟨fun _ => .free, false, none, clock, []⟩

/-- The loop with slot `s` changed. -/
def Loop.set (l : Loop) (s : Nat) (f : Slot → Slot) : Loop :=
  { l with slots := Function.update l.slots s (f (l.slots s)) }

/-- The comment is written to a slot. -/
def Loop.comment (l : Loop) (x : Slot) : Loop := { l with comments := x :: l.comments }

/-- What a `send` answers, and the registration for the rest of the frame. -/
inductive Sent where
  | failed
  | took (n : Nat) (registered : Bool)

def FLUSH_AFTER_SEND : Int := -1

def SSE_FLUSH_COMMENT : String := ": flush\n\n"

/-! ## Its calls -/

/-- `_close_slot`. -/
def Slot.close (x : Slot) : Slot :=
  { x with
    attached := false, kind := .request, unsent := 0, sse := false, ws := false, closing := false
    zstd := false, shouldClose := false, due := 0 }

/-- The slot stamped with a due. -/
def Slot.owe (due : Int) (x : Slot) : Slot := { x with due := due }

/-- The slot with `n` bytes of a frame unsent. -/
def Slot.sending (n : Nat) (x : Slot) : Slot := { x with kind := .responding, unsent := n }

/-- `_send_frame` of a frame of `len` bytes: whether it is on its way. -/
def sendFrame (l : Loop) (s len : Nat) : Sent → Loop × Bool
  | .failed => (l.set s Slot.close, false)
  | .took n registered =>
    if n < len ∧ registered = false then (l.set s Slot.close, false)
    else (l.set s (.sending (len - n)), true)

variable (c : Config)

/-- `_owe_flush`. -/
def oweFlush (l : Loop) (s lag : Nat) : Loop :=
  let x := l.slots s
  if c.sseFlushMs ≤ 0 ∨ x.sse = false ∨ x.channel = true then l
  else
    let due := l.clock + c.sseFlushMs * 1000000
    let l := l.set s (.owe due)
    if l.flushArmed then l else { l with timer := some ⟨due, lag⟩, flushArmed := true }

/-- `_stream_idle`. -/
def streamIdle (l : Loop) (s lag : Nat) : Loop :=
  if (l.slots s).ws then l.set s fun x => { x with unsent := 0, kind := .streamingWs }
  else
    let l := l.set s fun x => { x with unsent := 0, kind := .streamingSse }
    if (l.slots s).due = FLUSH_AFTER_SEND then
      oweFlush c (l.set s (.owe 0)) s lag
    else l

/-- `_ws_linger`. -/
def Slot.wsLinger (x : Slot) : Slot :=
  { x with closing := true, unsent := 0, kind := .streamingWs }

/-- `_end_request`. -/
def Slot.endRequest (x : Slot) : Slot :=
  { x with unsent := 0, kind := .request, shouldClose := false }

/-- `_after_send`. -/
def afterSend (l : Loop) (s lag : Nat) : Loop :=
  let x := l.slots s
  if x.shouldClose then
    if x.ws ∧ x.closing then l.set s Slot.wsLinger else l.set s Slot.close
  else if x.ws ∨ x.sse then streamIdle c l s lag
  else l.set s Slot.endRequest

/-- `_chunked_stream_ends`. -/
def Slot.chunkedStreamEnds (x : Slot) : Slot :=
  { x with
    sse := false, zstd := false, chunked := false
    shouldClose := x.closeAfterStream || x.shouldClose }

/-- `_takes_an_out_of_band_frame`. -/
def Slot.takesAnOutOfBandFrame (x : Slot) : Bool :=
  if x.ws then !x.closing && x.kind == .streamingWs
  else if x.sse then !x.channel && x.kind == .streamingSse
  else false

/-- What `_finish_response` reads of a response, behind the stream cap and the rule for a HEAD. -/
structure Response where
  sseStreaming : Bool
  upgradedWs : Bool
  channel : Bool
  chunked : Bool
  zstd : Bool
  bodyLen : Nat
  /-- The head and the body as sent. -/
  len : Nat
  closes : Bool

/-- The slot a response is about to go out of. -/
def Slot.respond (x : Slot) (r : Response) : Slot :=
  { x with
    closeAfterStream := r.closes
    shouldClose := r.closes && !r.sseStreaming && !r.upgradedWs
    sse := r.sseStreaming || x.sse
    ws := r.upgradedWs || x.ws
    closing := !r.upgradedWs && x.closing
    zstd := if r.sseStreaming then r.zstd else x.zstd
    channel := r.channel
    chunked := r.sseStreaming && r.channel && r.chunked
    kind := .responding
    unsent := r.len }

/-- `_finish_response`, of a slot that has a request to answer. -/
def respond (l : Loop) (s : Nat) (r : Response) (sent : Sent) (lag : Nat) : Loop :=
  let l := l.set s (·.respond r)
  let l := if (l.slots s).sse ∧ 0 < r.bodyLen then oweFlush c l s lag else l
  match sendFrame l s r.len sent with
  | (l, false) => l
  | (l, true) => if (l.slots s).unsent = 0 then afterSend c l s lag else l

/-- A stream between two frames. -/
def Slot.streaming (x : Slot) : Slot :=
  { x with kind := if x.ws then .streamingWs else .streamingSse }

/-- `_heartbeat`. -/
def heartbeat (l : Loop) (s len : Nat) (zstdOk : Bool) (sent : Sent) : Loop :=
  let x := l.slots s
  if x.takesAnOutOfBandFrame = false then l
  else if x.ws = false ∧ x.zstd ∧ zstdOk = false then l.set s Slot.close
  else
    match sendFrame l s len sent with
    | (l, false) => l
    | (l, true) => if (l.slots s).unsent = 0 then l.set s Slot.streaming else l

/-- What `_read_websocket` sends of its own, and the close behind it. -/
def wsReply (l : Loop) (s len : Nat) (closes : Bool) (sent : Sent) : Loop :=
  match sendFrame l s len sent with
  | (l, false) => l
  | (l, true) =>
    if (l.slots s).unsent = 0 then l.set s (if closes then Slot.close else Slot.streaming)
    else l.set s fun x => { x with shouldClose := closes || x.shouldClose }

/-- What a slot's turn at the drain finds: what its handler queued, whether its channel stream has
ended, and what goes out for them. -/
structure Drained where
  payload : Nat
  ended : Bool
  len : Nat
  zstdOk : Bool
  sent : Sent
  /-- `clear_stream` leaves an executor's slot a channel stream. -/
  clears : Bool

def Slot.clearStream (x : Slot) (clears : Bool) : Slot :=
  { x with channel := x.channel && !clears }

/-- An ended stream whose bytes have landed: a socket lingers, the rest close. -/
def Slot.endsUnframed (x : Slot) : Slot :=
  if x.ws ∧ 0 < c.idleTimeout then x.wsLinger else x.close

/-- The rest of an ended stream's bytes is on its way. -/
def Slot.endsWaiting (x : Slot) : Slot :=
  { x with shouldClose := true, closing := x.closing || (x.ws && decide (0 < c.idleTimeout)) }

/-- A stream between two frames, and open. -/
def Slot.idle (x : Slot) : Bool :=
  x.attached && ((x.sse && x.kind == .streamingSse) || (x.ws && x.kind == .streamingWs))

/-- `_drain_slot`. -/
def drainSlot (l : Loop) (s : Nat) (d : Drained) (lag : Nat) : Loop :=
  let x := l.slots s
  let ended := x.channel && d.ended
  if x.idle = false then l
  else if 0 < d.payload ∧ x.zstd ∧ d.zstdOk = false then l.set s Slot.close
  else if 0 < d.payload ∨ (x.chunked ∧ ended) then
    match sendFrame l s d.len d.sent with
    | (l, false) => l
    | (l, true) =>
      let l := oweFlush c l s lag
      if (l.slots s).unsent = 0 then
        if ended then
          let l := l.set s (·.clearStream d.clears)
          if x.chunked then afterSend c (l.set s Slot.chunkedStreamEnds) s lag
          else l.set s (·.endsUnframed c)
        else l.set s Slot.streaming
      else if ended then
        let l := l.set s (·.clearStream d.clears)
        if x.chunked then l.set s Slot.chunkedStreamEnds else l.set s (·.endsWaiting c)
      else l
  else if ended then (l.set s (·.clearStream d.clears)).set s (·.endsUnframed c)
  else l

/-- What zstd and the kernel answer of one slot's comment. -/
structure Comment where
  zstdOk : Bool
  len : Nat
  sent : Sent

/-- One slot of `_flush_streams` whose flush is due. -/
def flushSlot (l : Loop) (s : Nat) (o : Comment) : Loop :=
  let l := l.set s (.owe 0)
  let x := l.slots s
  if x.sse = false then l
  else if x.takesAnOutOfBandFrame = false then
    if x.kind = .responding then l.set s (.owe FLUSH_AFTER_SEND) else l
  else if x.zstd ∧ o.zstdOk = false then l.set s Slot.close
  else
    let len := if x.zstd then o.len else SSE_FLUSH_COMMENT.utf8ByteSize
    match sendFrame (l.comment x) s len o.sent with
    | (l, false) => l
    | (l, true) =>
      if (l.slots s).unsent = 0 then l.set s fun x => { x with kind := .streamingSse } else l

/-- One slot of the sweep, with the earliest flush still owed, 0 for none. -/
def sweepSlot (os : Nat → Comment) (now : Int) (a : Loop × Int) (s : Nat) : Loop × Int :=
  let due := (a.1.slots s).due
  if due ≤ 0 then a
  else if due > now + 1000000 then (a.1, if a.2 = 0 ∨ due < a.2 then due else a.2)
  else (flushSlot a.1 s (os s), a.2)

/-- `_flush_streams`. -/
def flushStreams (l : Loop) (os : Nat → Comment) (lag : Nat) : Loop :=
  let now := l.clock
  let (l, nextDue) := (List.range c.maxConns).foldl (sweepSlot os now)
    ({ l with flushArmed := false }, 0)
  if nextDue ≠ 0 then
    let ms := max ((nextDue - now + 999999) / 1000000) 1
    { l with timer := some ⟨now + ms * 1000000, lag⟩, flushArmed := true }
  else { l with timer := none }

/-! ## Its runs -/

inductive Op where
  /-- A connection takes a free slot. -/
  | accept (s : Nat)
  | respond (s : Nat) (r : Response) (sent : Sent)
  /-- The write-ready path has sent the rest of a frame. -/
  | land (s : Nat)
  | heartbeat (s len : Nat) (zstdOk : Bool) (sent : Sent)
  | wsReply (s len : Nat) (closes : Bool) (sent : Sent)
  | drain (s : Nat) (d : Drained)
  | close (s : Nat)
  /-- The flush timer fires. -/
  | fire (os : Nat → Comment)
  | wait

def Op.slot : Op → Option Nat
  | .accept s | .respond s _ _ | .land s | .heartbeat s _ _ _ | .wsReply s _ _ _
  | .drain s _ | .close s => some s
  | _ => none

/-- One call, where the loop makes it. -/
def call (l : Loop) (op : Op) (lag : Nat) : Loop :=
  match op with
  | .accept s =>
    if (l.slots s).attached = false then l.set s fun x => { x with attached := true } else l
  | .respond s r sent =>
    if (l.slots s).attached ∧ (l.slots s).kind = .request then respond c l s r sent lag else l
  | .land s => if (l.slots s).kind = .responding then afterSend c l s lag else l
  | .heartbeat s len zstdOk sent => heartbeat l s len zstdOk sent
  | .wsReply s len closes sent =>
    if (l.slots s).ws ∧ (l.slots s).kind = .streamingWs then wsReply l s len closes sent else l
  | .drain s d => drainSlot c l s d lag
  | .close s => l.set s Slot.close
  | .fire os =>
    match l.timer with
    | some t =>
      -- one-shot, and no earlier than it is set for
      if t.base + t.lag ≤ l.clock then flushStreams c { l with timer := none } os lag else l
    | none => l
  | .wait => l

/-- A call of a slot the loop has, and the time it takes. -/
def step (l : Loop) (o : Op × Nat) : Loop :=
  let after := if ∀ s ∈ o.1.slot, s < c.maxConns then call c l o.1 o.2 else l
  { after with clock := after.clock + o.2 }

def runs (clock : Int) (ops : List (Op × Nat)) : Loop := ops.foldl (step c) (.init clock)

/-! ## What a slot keeps -/

/-- A slot that is owed a comment is an open stream of events that its handler writes whole, between
two frames or sending one; marked, it is sending. Between two frames nothing is half sent. -/
structure SlotOk (x : Slot) : Prop where
  due : -1 ≤ x.due
  owed : x.due ≠ 0 → 0 < c.sseFlushMs ∧ x.sse = true ∧ x.channel = false ∧ x.shouldClose = false ∧
    (x.kind = .responding ∨ x.kind = .streamingSse)
  marked : x.due = FLUSH_AFTER_SEND → x.kind = .responding
  whole : x.kind ≠ .responding → x.unsent = 0
  one : x.sse = true → x.ws = false
  request : x.kind = .request → x.sse = false ∧ x.ws = false
  live : x.kind = .streamingSse → x.sse = true ∧ x.shouldClose = false
  gone : x.attached = false → x.kind = .request

variable {c}

theorem SlotOk.close (x : Slot) : SlotOk c x.close := by
  constructor
  all_goals simp [Slot.close, FLUSH_AFTER_SEND]

theorem SlotOk.due_of_not {x : Slot} (h : SlotOk c x) (hx : x.sse = false ∨ x.channel = true ∨
    x.shouldClose = true ∨ x.kind = .request ∨ x.kind = .streamingWs) : x.due = 0 := by
  by_contra hne
  obtain ⟨-, hsse, hchannel, hcloses, hkind⟩ := h.owed hne
  rcases hkind with hkind | hkind
  all_goals simp_all

theorem SlotOk.sse_of_ws {x : Slot} (h : SlotOk c x) (hws : x.ws = true) : x.sse = false := by
  by_contra hne
  have hone := h.one (by simpa using hne)
  rw [hws] at hone
  cases hone

theorem SlotOk.attached_of_kind {x : Slot} (h : SlotOk c x) (hkind : x.kind ≠ .request) :
    x.attached = true := by
  by_contra hne
  exact hkind (h.gone (by simpa using hne))

theorem SlotOk.attached {x : Slot} (h : SlotOk c x) (hsse : x.sse = true ∨ x.ws = true) :
    x.attached = true := by
  by_contra hne
  have := h.request (h.gone (by simpa using hne))
  simp_all

/-- A slot that is not owed one, or is sending a frame of a stream, sends. -/
theorem SlotOk.sends {x : Slot} (h : SlotOk c x) (hattached : x.attached = true) (n : Nat) :
    SlotOk c (x.sending n) := by
  constructor
  · exact h.due
  · intro hne
    obtain ⟨hms, hsse, hchannel, hcloses, -⟩ := h.owed hne
    exact ⟨hms, hsse, hchannel, hcloses, .inl rfl⟩
  · exact fun _ => rfl
  · exact fun hne => absurd rfl hne
  · exact h.one
  · exact fun hkind => nomatch hkind
  · exact fun hkind => nomatch hkind
  · exact fun hgone => absurd (hattached.symm.trans hgone) (by decide)

theorem SlotOk.wsLinger {x : Slot} (h : SlotOk c x) (hws : x.ws = true) : SlotOk c x.wsLinger := by
  have hsse := h.sse_of_ws hws
  have hdue := h.due_of_not (.inl hsse)
  have hattached := h.attached (.inr hws)
  constructor
  all_goals simp_all [Slot.wsLinger, FLUSH_AFTER_SEND]

/-- A frame has landed whole, and the stream is between two frames again. -/
theorem SlotOk.streaming {x : Slot} (h : SlotOk c x) (hstreams : x.sse = true ∨ x.ws = true)
    (hunsent : x.unsent = 0) (hmark : x.due ≠ FLUSH_AFTER_SEND)
    (hcloses : x.ws = false → x.shouldClose = false) : SlotOk c x.streaming := by
  have hattached := h.attached hstreams
  cases hws : x.ws with
  | true =>
    have hsse := h.sse_of_ws hws
    have hdue := h.due_of_not (.inl hsse)
    constructor
    all_goals simp_all [Slot.streaming, FLUSH_AFTER_SEND]
  | false =>
    have hsse : x.sse = true := by simpa [hws] using hstreams
    have howed := h.owed
    have hdue := h.due
    constructor
    all_goals simp_all [Slot.streaming]

/-- A slot that is sending and is owed no comment. -/
theorem SlotOk.unowed {x : Slot} (hdue : x.due = 0) (hattached : x.attached = true)
    (hkind : x.kind = .responding) (hone : x.sse = true → x.ws = false) : SlotOk c x := by
  constructor
  all_goals simp_all [FLUSH_AFTER_SEND]

/-! ## What the loop keeps -/

/-- Where the comment is written: an open stream of events that its handler writes whole, between
two frames. -/
def Slot.Between (x : Slot) : Prop :=
  x.attached = true ∧ x.sse = true ∧ x.ws = false ∧ x.channel = false ∧ x.kind = .streamingSse ∧
    x.unsent = 0

variable (c) in
/-- What a call keeps of the slots. -/
structure Base (l : Loop) : Prop where
  slot : ∀ s, SlotOk c (l.slots s)
  clock : 0 ≤ l.clock
  range : ∀ s, (l.slots s).due ≠ 0 → s < c.maxConns
  due_le : ∀ s, 0 < (l.slots s).due → (l.slots s).due ≤ l.clock + c.sseFlushMs * 1000000
  comments : ∀ x ∈ l.comments, x.Between

variable (c) in
/-- What it keeps of the timer. -/
structure Clocked (l : Loop) : Prop where
  armed : ∀ s, 0 < (l.slots s).due → l.flushArmed = true
  timer : l.flushArmed = true → ∃ t, l.timer = some t ∧
    t.base ≤ l.clock + c.sseFlushMs * 1000000 + 1000000 ∧
    ∀ s, 0 < (l.slots s).due → t.base ≤ (l.slots s).due + 1000000

/-- A due that stays, is gone, or marks a slot that was owed a comment. -/
def DueFalls (x x' : Slot) : Prop :=
  x'.due = x.due ∨ x'.due = 0 ∨ x'.due = FLUSH_AFTER_SEND ∧ x.due ≠ 0

variable {l : Loop} {s lag : Nat} {f : Slot → Slot}

@[simp] theorem set_self : (l.set s f).slots s = f (l.slots s) := Function.update_self ..

theorem set_of_ne {u : Nat} (h : u ≠ s) : (l.set s f).slots u = l.slots u :=
  Function.update_of_ne h ..

theorem set_set (g : Slot → Slot) : (l.set s f).set s g = l.set s fun x => g (f x) := by
  simp only [Loop.set, Function.update_self, Function.update_idem]

theorem forall_set {P : Nat → Slot → Prop} (h : ∀ u, P u (l.slots u))
    (hs : P s (l.slots s) → P s (f (l.slots s))) : ∀ u, P u ((l.set s f).slots u) := by
  intro u
  rcases eq_or_ne u s with rfl | hne
  · rw [set_self]
    exact hs (h u)
  · rw [set_of_ne hne]
    exact h u

theorem DueFalls.pos {x x' : Slot} (h : DueFalls x x') (hpos : 0 < x'.due) : x'.due = x.due := by
  unfold DueFalls FLUSH_AFTER_SEND at h
  omega

theorem DueFalls.ne {x x' : Slot} (h : DueFalls x x') (hne : x'.due ≠ 0) : x.due ≠ 0 := by
  unfold DueFalls at h
  omega

theorem Base.set (h : Base c l) (hx : SlotOk c (f (l.slots s)))
    (hdue : DueFalls (l.slots s) (f (l.slots s))) : Base c (l.set s f) where
  slot := forall_set (P := fun _ => SlotOk c) h.slot fun _ => hx
  clock := h.clock
  range := forall_set (P := fun u x => x.due ≠ 0 → u < c.maxConns) h.range fun hs hne =>
    hs (hdue.ne hne)
  due_le := forall_set (P := fun _ x => 0 < x.due → x.due ≤ l.clock + c.sseFlushMs * 1000000)
    h.due_le fun hs hpos => by
      have heq := hdue.pos hpos
      rw [heq] at hpos ⊢
      exact hs hpos
  comments := h.comments

theorem Clocked.change (h : Clocked c l) (hdue : DueFalls (l.slots s) (f (l.slots s))) :
    Clocked c (l.set s f) where
  armed := forall_set (P := fun _ x => 0 < x.due → l.flushArmed = true) h.armed fun hs hpos => by
    have heq := hdue.pos hpos
    rw [heq] at hpos
    exact hs hpos
  timer harmed := by
    obtain ⟨t, ht, hbase, hdues⟩ := h.timer harmed
    refine ⟨t, ht, hbase, forall_set (P := fun _ x => 0 < x.due → t.base ≤ x.due + 1000000) hdues
      fun hs hpos => ?_⟩
    have heq := hdue.pos hpos
    rw [heq] at hpos ⊢
    exact hs hpos

variable (c) in
/-- What a call keeps. -/
structure Ok (l : Loop) : Prop where
  base : Base c l
  clocked : Clocked c l

theorem Ok.set (h : Ok c l) (hx : SlotOk c (f (l.slots s)))
    (hdue : DueFalls (l.slots s) (f (l.slots s))) : Ok c (l.set s f) :=
  ⟨h.base.set hx hdue, h.clocked.change hdue⟩

theorem Ok.close (h : Ok c l) : Ok c (l.set s Slot.close) :=
  h.set (.close _) (.inr (.inl rfl))

/-- **A stamp keeps the timer ahead of every due**: the new due is an interval from now, and the
timer was set for a stamp made before. -/
theorem Ok.oweFlush (h : Ok c l) (hs : s < c.maxConns)
    (hsends : (l.slots s).sse = true → (l.slots s).channel = false →
      (l.slots s).shouldClose = false ∧
      ((l.slots s).kind = .responding ∨ (l.slots s).kind = .streamingSse)) :
    Ok c (oweFlush c l s lag) := by
  unfold FlushTimer.oweFlush
  dsimp only
  split
  · exact h
  · rename_i hstamps
    simp only [not_or, Bool.not_eq_false, Bool.not_eq_true] at hstamps
    obtain ⟨hms, hsse, hchannel⟩ := hstamps
    have hclock := h.base.clock
    have hpos : 0 < l.clock + c.sseFlushMs * 1000000 := by omega
    obtain ⟨hcloses, hkind⟩ := hsends hsse hchannel
    have hx := h.base.slot s
    have hslot : SlotOk c ((l.slots s).owe (l.clock + c.sseFlushMs * 1000000)) := by
      refine ⟨?_, fun _ => ⟨by omega, hsse, hchannel, hcloses, hkind⟩, fun hmarked => ?_, hx.whole,
        hx.one, hx.request, hx.live, hx.gone⟩
      · show -1 ≤ l.clock + c.sseFlushMs * 1000000
        omega
      · have hmarked : l.clock + c.sseFlushMs * 1000000 = -1 := hmarked
        omega
    have hbase : Base c (l.set s (.owe (l.clock + c.sseFlushMs * 1000000))) :=
      ⟨forall_set (P := fun _ => SlotOk c) h.base.slot fun _ => hslot, hclock,
        forall_set (P := fun u x => x.due ≠ 0 → u < c.maxConns) h.base.range fun _ _ => hs,
        forall_set (P := fun _ x => 0 < x.due → x.due ≤ l.clock + c.sseFlushMs * 1000000)
          h.base.due_le fun _ _ => Int.le_refl _,
        h.base.comments⟩
    split
    · rename_i harmed
      refine ⟨hbase, fun _ _ => harmed, fun _ => ?_⟩
      obtain ⟨t, ht, htbase, hdues⟩ := h.clocked.timer harmed
      exact ⟨t, ht, htbase, forall_set (P := fun _ x => 0 < x.due → t.base ≤ x.due + 1000000) hdues
        fun _ _ => htbase⟩
    · rename_i harmed
      refine ⟨⟨hbase.slot, hclock, hbase.range, hbase.due_le, hbase.comments⟩, fun _ _ => rfl,
        fun _ => ⟨_, rfl, ?_, ?_⟩⟩
      · show l.clock + c.sseFlushMs * 1000000 ≤ l.clock + c.sseFlushMs * 1000000 + 1000000
        omega
      · -- no other slot is owed a comment while the timer is not set
        refine forall_set (P := fun _ x => 0 < x.due →
          l.clock + c.sseFlushMs * 1000000 ≤ x.due + 1000000)
          (fun u hu => absurd (h.clocked.armed u hu) harmed) fun _ _ => ?_
        show l.clock + c.sseFlushMs * 1000000 ≤ l.clock + c.sseFlushMs * 1000000 + 1000000
        omega

/-- A stamp changes no other field of the slot, and is no mark. -/
theorem oweFlush_slot (lag : Nat) (hclock : 0 ≤ l.clock) : ∃ due,
    (oweFlush c l s lag).slots s = (l.slots s).owe due ∧ (due = (l.slots s).due ∨ 0 < due) := by
  unfold oweFlush
  dsimp only
  split
  · exact ⟨_, rfl, .inl rfl⟩
  · rename_i hstamps
    simp only [not_or] at hstamps
    refine ⟨l.clock + c.sseFlushMs * 1000000, ?_, .inr (by omega)⟩
    have hset : (l.set s (.owe (l.clock + c.sseFlushMs * 1000000))).slots s = _ := set_self
    split
    · exact hset
    · exact hset

/-- A channel stream is owed none. -/
theorem oweFlush_channel (h : (l.slots s).channel = true) : oweFlush c l s lag = l :=
  if_pos (.inr (.inr h))

theorem sendFrame_eq (l : Loop) (s len : Nat) (sent : Sent) :
    sendFrame l s len sent = (l.set s Slot.close, false) ∨ ∃ n, sendFrame l s len sent = (l.set s (.sending n), true) := by
  cases sent with
  | failed => exact .inl rfl
  | took n registered =>
    rcases Classical.em (n < len ∧ registered = false) with h | h
    · exact .inl (if_pos h)
    · exact .inr ⟨len - n, if_neg h⟩

theorem Ok.afterSend (h : Ok c l) (hs : s < c.maxConns) (hkind : (l.slots s).kind = .responding) :
    Ok c (afterSend c l s lag) := by
  have hx := h.base.slot s
  have hattached : (l.slots s).attached = true := hx.attached_of_kind (by rw [hkind]; decide)
  unfold FlushTimer.afterSend
  dsimp only
  split
  · rename_i hcloses
    have hdue : (l.slots s).due = 0 := hx.due_of_not (.inr (.inr (.inl hcloses)))
    split
    · rename_i hlingers
      exact h.set (hx.wsLinger hlingers.1) (.inl rfl)
    · exact h.close
  · rename_i hopen
    split
    · rename_i hstreams
      unfold streamIdle
      split
      · rename_i hws
        have hsse := hx.sse_of_ws hws
        have hdue : (l.slots s).due = 0 := hx.due_of_not (.inl hsse)
        refine h.set ?_ (.inl rfl)
        constructor
        all_goals simp_all [FLUSH_AFTER_SEND]
      · rename_i hws
        have hsse : (l.slots s).sse = true := by simpa [hws] using hstreams
        dsimp only
        rw [set_self]
        split
        · -- the mark goes, and the slot is stamped afresh
          rename_i hmarked
          obtain ⟨-, -, hchannel, -, -⟩ := hx.owed (by rw [hmarked]; decide)
          rw [set_set]
          refine Ok.oweFlush (h.set ?_ (.inr (.inl rfl))) hs ?_
          · constructor
            all_goals simp_all [Slot.owe, FLUSH_AFTER_SEND]
          · rw [set_self]
            exact fun _ _ => ⟨by simpa [Slot.owe] using hopen, .inr rfl⟩
        · rename_i hmarked
          refine h.set ?_ (.inl rfl)
          refine ⟨hx.due, fun hne => ?_, fun h => absurd h hmarked, fun _ => rfl, hx.one,
            (fun h => nomatch h), fun _ => ⟨hsse, by simpa using hopen⟩,
            fun hgone => absurd (hattached.symm.trans hgone) (by decide)⟩
          obtain ⟨hms, -, hchannel, hcloses, -⟩ := hx.owed hne
          exact ⟨hms, hsse, hchannel, hcloses, .inr rfl⟩
    · rename_i hstreams
      simp only [not_or, Bool.not_eq_true] at hstreams
      have hdue : (l.slots s).due = 0 := hx.due_of_not (.inl hstreams.2)
      refine h.set ?_ (.inl rfl)
      constructor
      all_goals simp_all [Slot.endRequest, FLUSH_AFTER_SEND]

/-- The slot of a frame that is on its way. -/
theorem Ok.sending (h : Ok c l) (hattached : (l.slots s).attached = true) (n : Nat) :
    Ok c (l.set s (.sending n)) :=
  h.set ((h.base.slot s).sends hattached n) (.inl rfl)

theorem Ok.respond (h : Ok c l) (hs : s < c.maxConns) {r : Response} {sent : Sent}
    (hone : r.sseStreaming = true → r.upgradedWs = false) (hattached : (l.slots s).attached = true)
    (hkind : (l.slots s).kind = .request) : Ok c (respond c l s r sent lag) := by
  have hx := h.base.slot s
  obtain ⟨hsse, hws⟩ := hx.request hkind
  have hdue := hx.due_of_not (.inl hsse)
  have h₁ : Ok c (l.set s (·.respond r)) := by
    refine h.set (.unowed hdue hattached rfl ?_) (.inl rfl)
    simpa [Slot.respond, hsse, hws] using hone
  have h₂ : ∀ l', l' = (if ((l.set s (·.respond r)).slots s).sse = true ∧ 0 < r.bodyLen then
      FlushTimer.oweFlush c (l.set s (·.respond r)) s lag else l.set s (·.respond r)) →
      Ok c l' ∧ (l'.slots s).attached = true := by
    rintro _ rfl
    split
    · refine ⟨h₁.oweFlush hs ?_, ?_⟩
      · rw [set_self]
        intro hopens _
        have hopens : r.sseStreaming = true := by simpa [Slot.respond, hsse] using hopens
        exact ⟨by simp [Slot.respond, hopens], .inl rfl⟩
      · obtain ⟨due, hslot, -⟩ := oweFlush_slot (c := c) (s := s) lag h₁.base.clock
        rw [hslot, set_self]
        exact hattached
    · rw [set_self]
      exact ⟨h₁, hattached⟩
  unfold FlushTimer.respond
  dsimp only
  obtain ⟨hok, hat⟩ := h₂ _ rfl
  generalize (if ((l.set s (·.respond r)).slots s).sse = true ∧ 0 < r.bodyLen then
      FlushTimer.oweFlush c (l.set s (·.respond r)) s lag else l.set s (·.respond r)) = l'
    at hok hat ⊢
  rcases sendFrame_eq l' s r.len sent with heq | ⟨n, heq⟩
  · rw [heq]
    exact hok.close
  · rw [heq]
    dsimp only
    split
    · exact (hok.sending hat n).afterSend hs (by rw [set_self]; rfl)
    · exact hok.sending hat n

/-- A stream between two frames, as its own fields say. -/
theorem SlotOk.of_idle {x : Slot} (h : SlotOk c x) (hidle : x.idle = true) :
    x.attached = true ∧ (x.sse = true ∨ x.ws = true) ∧ x.due ≠ FLUSH_AFTER_SEND ∧
      (x.ws = false → x.shouldClose = false) := by
  simp only [Slot.idle, Bool.and_eq_true, Bool.or_eq_true, beq_iff_eq] at hidle
  obtain ⟨hattached, hstream⟩ := hidle
  refine ⟨hattached, ?_, fun hmarked => ?_, fun hws => ?_⟩
  · exact hstream.imp And.left And.left
  · have hkind := h.marked hmarked
    rcases hstream with ⟨-, hk⟩ | ⟨-, hk⟩
    · rw [hk] at hkind
      cases hkind
    · rw [hk] at hkind
      cases hkind
  · rcases hstream with ⟨-, hk⟩ | ⟨hws', -⟩
    · exact (h.live hk).2
    · rw [hws] at hws'
      cases hws'

theorem SlotOk.idle_of_takes {x : Slot} (h : SlotOk c x) (htakes : x.takesAnOutOfBandFrame = true) :
    x.idle = true := by
  unfold Slot.takesAnOutOfBandFrame at htakes
  unfold Slot.idle
  split at htakes
  · rename_i hws
    have := h.attached (.inr hws)
    simp_all
  · split at htakes
    · rename_i hsse
      have := h.attached (.inl hsse)
      simp_all
    · cases htakes

theorem Ok.heartbeat (h : Ok c l) {len : Nat} {zstdOk : Bool} {sent : Sent} :
    Ok c (heartbeat l s len zstdOk sent) := by
  have hx := h.base.slot s
  unfold FlushTimer.heartbeat
  dsimp only
  split
  · exact h
  rename_i htakes
  obtain ⟨hattached, hstreams, hmark, hcloses⟩ := hx.of_idle (hx.idle_of_takes (by simpa using htakes))
  split
  · exact h.close
  rcases sendFrame_eq l s len sent with heq | ⟨n, heq⟩
  · rw [heq]
    exact h.close
  · rw [heq]
    have h₁ := h.sending hattached n
    dsimp only
    split
    · rename_i hlanded
      refine h₁.set ((h₁.base.slot s).streaming ?_ hlanded ?_ ?_) (.inl rfl)
      · rw [set_self]
        exact hstreams
      · rw [set_self]
        exact hmark
      · rw [set_self]
        exact hcloses
    · exact h₁

theorem Ok.wsReply (h : Ok c l) {len : Nat} {closes : Bool} {sent : Sent}
    (hws : (l.slots s).ws = true) : Ok c (wsReply l s len closes sent) := by
  have hx := h.base.slot s
  have hattached := hx.attached (.inr hws)
  have hdue := hx.due_of_not (.inl (hx.sse_of_ws hws))
  unfold FlushTimer.wsReply
  rcases sendFrame_eq l s len sent with heq | ⟨n, heq⟩
  · rw [heq]
    exact h.close
  · rw [heq]
    have h₁ := h.sending hattached n
    dsimp only
    split
    · rename_i hlanded
      split
      · exact h₁.close
      · refine h₁.set ((h₁.base.slot s).streaming ?_ hlanded ?_ ?_) (.inl rfl)
        · rw [set_self]
          exact .inr hws
        · rw [set_self]
          show (l.slots s).due ≠ _
          rw [hdue]
          decide
        · rw [set_self]
          exact fun hne => absurd (hws.symm.trans hne) (by decide)
    · refine h₁.set ?_ (.inl rfl)
      rw [set_self]
      exact .unowed hdue hattached rfl hx.one

/-- An ended stream: its slot, a channel stream's, is owed nothing. -/
theorem SlotOk.endsUnframed {x : Slot} (h : SlotOk c x) : SlotOk c (x.endsUnframed c) := by
  unfold Slot.endsUnframed
  split
  · rename_i hlingers
    exact h.wsLinger hlingers.1
  · exact .close x

theorem SlotOk.clearStream {x : Slot} (h : SlotOk c x) (hdue : x.due = 0) (clears : Bool) :
    SlotOk c (x.clearStream clears) :=
  ⟨h.due, fun hne => absurd hdue hne, h.marked, h.whole, h.one, h.request, h.live, h.gone⟩

theorem Ok.endsUnframed (h : Ok c l) (hdue : (l.slots s).due = 0) :
    Ok c (l.set s (·.endsUnframed c)) := by
  refine h.set (h.base.slot s).endsUnframed ?_
  unfold Slot.endsUnframed
  split
  · exact .inl rfl
  · exact .inr (.inl rfl)

theorem Ok.drainSlot (h : Ok c l) (hs : s < c.maxConns) {d : Drained} :
    Ok c (drainSlot c l s d lag) := by
  have hx := h.base.slot s
  unfold FlushTimer.drainSlot
  dsimp only
  split
  · exact h
  rename_i hidle
  obtain ⟨hattached, hstreams, hmark, hcloses⟩ := hx.of_idle (by simpa using hidle)
  -- what ends is a channel stream, which is owed no comment
  have hends : ((l.slots s).channel && d.ended) = true →
      (l.slots s).channel = true ∧ (l.slots s).due = 0 := by
    intro hended
    have hchannel : (l.slots s).channel = true := by
      rw [Bool.and_eq_true] at hended
      exact hended.1
    exact ⟨hchannel, hx.due_of_not (.inr (.inl hchannel))⟩
  split
  · exact h.close
  split
  · rcases sendFrame_eq l s d.len d.sent with heq | ⟨n, heq⟩
    · rw [heq]
      exact h.close
    rw [heq]
    dsimp only
    have h₁ := h.sending hattached n
    cases hended : (l.slots s).channel && d.ended with
    | true =>
      obtain ⟨hchannel, hdue⟩ := hends hended
      have hsame : FlushTimer.oweFlush c (l.set s (.sending n)) s lag = l.set s (.sending n) :=
        oweFlush_channel (by rw [set_self]; exact hchannel)
      rw [hsame]
      have hdue₁ : ((l.set s (.sending n)).slots s).due = 0 := by rw [set_self]; exact hdue
      have h₂ : Ok c ((l.set s (.sending n)).set s (·.clearStream d.clears)) :=
        h₁.set ((h₁.base.slot s).clearStream hdue₁ _) (.inl rfl)
      have hchunk : Ok c (((l.set s (.sending n)).set s (·.clearStream d.clears)).set s
          Slot.chunkedStreamEnds) := by
        refine h₂.set ?_ (.inl rfl)
        rw [set_self, set_self]
        exact .unowed hdue hattached rfl (fun hsse => nomatch hsse)
      simp only [if_true]
      split
      · split
        · refine hchunk.afterSend hs ?_
          rw [set_self, set_self, set_self]
          rfl
        · refine h₂.endsUnframed ?_
          rw [set_self]
          exact hdue₁
      · split
        · exact hchunk
        · refine h₂.set ?_ (.inl rfl)
          rw [set_self, set_self]
          exact .unowed hdue hattached rfl hx.one
    | false =>
      simp only [Bool.false_eq_true, if_false]
      have h₂ : Ok c (FlushTimer.oweFlush c (l.set s (.sending n)) s lag) := by
        refine h₁.oweFlush hs ?_
        rw [set_self]
        exact fun hsse _ => ⟨hcloses (hx.one hsse), .inl rfl⟩
      obtain ⟨due, hslot, hfrom⟩ := oweFlush_slot (c := c) (s := s) lag h₁.base.clock
      rw [set_self] at hslot hfrom
      split
      · rename_i hlanded
        refine h₂.set ((h₂.base.slot s).streaming ?_ hlanded ?_ ?_) (.inl rfl)
        · rw [hslot]
          exact hstreams
        · rw [hslot]
          show due ≠ -1
          rcases hfrom with hsame | hpos
          · rw [hsame]
            exact hmark
          · omega
        · rw [hslot]
          exact hcloses
      · exact h₂
  · split
    · rename_i hended
      obtain ⟨-, hdue⟩ := hends hended
      have h₁ : Ok c (l.set s (·.clearStream d.clears)) := h.set (hx.clearStream hdue _) (.inl rfl)
      refine h₁.endsUnframed ?_
      rw [set_self]
      exact hdue
    · exact h

/-! ## The sweep -/

/-- What the sweep keeps: the timer's fields and the clock, and of the dues those still owed. -/
structure Sweeps (l l' : Loop) : Prop where
  armed : l'.flushArmed = l.flushArmed
  timer : l'.timer = l.timer
  clock : l'.clock = l.clock
  dues : ∀ s, 0 < (l'.slots s).due → (l'.slots s).due = (l.slots s).due

theorem Sweeps.refl : Sweeps l l := ⟨rfl, rfl, rfl, fun _ _ => rfl⟩

theorem Sweeps.trans {l₁ l₂ l₃ : Loop} (h : Sweeps l₁ l₂) (h' : Sweeps l₂ l₃) : Sweeps l₁ l₃ where
  armed := h'.armed.trans h.armed
  timer := h'.timer.trans h.timer
  clock := h'.clock.trans h.clock
  dues s hpos := by
    have heq := h'.dues s hpos
    rw [heq] at hpos ⊢
    exact h.dues s hpos

theorem Sweeps.set (hdue : DueFalls (l.slots s) (f (l.slots s))) : Sweeps l (l.set s f) where
  armed := rfl
  timer := rfl
  clock := rfl
  dues := forall_set (P := fun u x => 0 < x.due → x.due = (l.slots u).due) (fun _ _ => rfl)
    fun _ hpos => hdue.pos hpos

/-- What one slot of the sweep leaves: its due has fallen. -/
structure Flushed (l l' : Loop) (s : Nat) : Prop where
  base : Base c l'
  sweeps : Sweeps l l'
  due : (l'.slots s).due ≤ 0

theorem flushSlot_ok {o : Comment} (h : Base c l) (hpos : 0 < (l.slots s).due) :
    Flushed (c := c) l (flushSlot l s o) s := by
  have hx := h.slot s
  obtain ⟨hms, hsse, hchannel, hcloses, hkind⟩ := hx.owed (by omega)
  have hattached := hx.attached (.inl hsse)
  have hws := hx.one hsse
  have hset : ∀ {f : Slot → Slot}, SlotOk c (f (l.slots s)) → (f (l.slots s)).due ≤ 0 →
      DueFalls (l.slots s) (f (l.slots s)) → Flushed (c := c) l (l.set s f) s :=
    fun hok hle hfalls => ⟨h.set hok hfalls, .set hfalls, by rw [set_self]; exact hle⟩
  have hzero : SlotOk c ((l.slots s).owe 0) := by
    refine ⟨by show (-1 : Int) ≤ 0; decide, fun hne => absurd rfl hne, fun hm => ?_, hx.whole, hx.one,
      hx.request, hx.live, hx.gone⟩
    cases hm
  unfold flushSlot
  dsimp only
  rw [set_self]
  split
  · exact hset hzero (Int.le_refl 0) (.inr (.inl rfl))
  split
  · split
    · rename_i hresponding
      rw [set_set]
      refine hset ?_ (by show (-1 : Int) ≤ 0; decide) (.inr (.inr ⟨rfl, by omega⟩))
      exact ⟨Int.le_refl _, fun _ => ⟨hms, hsse, hchannel, hcloses, .inl hresponding⟩,
        fun _ => hresponding, hx.whole, hx.one, hx.request, hx.live, hx.gone⟩
    · exact hset hzero (Int.le_refl 0) (.inr (.inl rfl))
  rename_i htakes
  have hstreaming : (l.slots s).kind = .streamingSse := by
    simpa [Slot.takesAnOutOfBandFrame, Slot.owe, hws, hsse, hchannel] using htakes
  split
  · rw [set_set]
    exact hset (.close _) (Int.le_refl 0) (.inr (.inl rfl))
  -- the comment goes out
  have hwritten : ∀ {g : Slot → Slot}, SlotOk c (g ((l.slots s).owe 0)) →
      (g ((l.slots s).owe 0)).due = 0 →
      Flushed (c := c) l (((l.set s (.owe 0)).comment ((l.slots s).owe 0)).set s g) s := by
    intro g hok hdue
    have hdone := hset (f := fun x => g (x.owe 0)) hok (Int.le_of_eq hdue) (.inr (.inl hdue))
    rw [← set_set] at hdone
    refine ⟨⟨hdone.base.slot, hdone.base.clock, hdone.base.range, hdone.base.due_le, ?_⟩,
      ⟨rfl, rfl, rfl, hdone.sweeps.dues⟩, hdone.due⟩
    intro x hx'
    rcases List.mem_cons.mp hx' with rfl | hx'
    · exact ⟨hattached, hsse, hws, hchannel, hstreaming,
        hx.whole (by rw [hstreaming]; decide)⟩
    · exact h.comments x hx'
  generalize (if (Slot.owe 0 (l.slots s)).zstd = true then o.len
    else SSE_FLUSH_COMMENT.utf8ByteSize) = len
  rcases sendFrame_eq ((l.set s (.owe 0)).comment ((l.slots s).owe 0)) s len o.sent with
    heq | ⟨n, heq⟩
  · rw [heq]
    exact hwritten (.close _) rfl
  · rw [heq]
    have hsends : SlotOk c (((l.slots s).owe 0).sending n) := hzero.sends hattached n
    dsimp only
    split
    · rename_i hlanded
      rw [set_set]
      refine hwritten ?_ rfl
      have hback := hsends.streaming (.inl hsse) ?_ (show (0 : Int) ≠ -1 by decide) fun _ => hcloses
      · unfold Slot.streaming at hback
        rw [if_neg (by show ¬ (l.slots s).ws = true; rw [hws]; decide)] at hback
        exact hback
      · rw [set_self] at hlanded
        exact hlanded
    · exact hwritten hsends rfl

variable (c) in
/-- The earliest flush still owed is one of the dues that lie ahead. -/
def DueAhead (l : Loop) (nextDue : Int) : Prop :=
  nextDue = 0 ∨ l.clock + 1000000 < nextDue ∧ nextDue ≤ l.clock + c.sseFlushMs * 1000000

/-- **The sweep**: it keeps the slots, and answers the earliest due of the flushes still owed. -/
theorem foldl_sweepSlot (os : Nat → Comment) (ss : List Nat) {a : Loop × Int} (h : Base c a.1)
    (hahead : DueAhead c a.1 a.2) :
    let r := ss.foldl (sweepSlot os a.1.clock) a
    Base c r.1 ∧ Sweeps a.1 r.1 ∧ DueAhead c a.1 r.2 ∧ (a.2 ≠ 0 → r.2 ≠ 0 ∧ r.2 ≤ a.2) ∧
      ∀ s ∈ ss, 0 < (r.1.slots s).due → r.2 ≠ 0 ∧ r.2 ≤ (r.1.slots s).due := by
  induction ss generalizing a with
  | nil => exact ⟨h, .refl, hahead, fun hne => ⟨hne, Int.le_refl _⟩, fun _ hs => nomatch hs⟩
  | cons s ss ih =>
    -- what the first slot leaves for the rest
    suffices hone : Base c (sweepSlot os a.1.clock a s).1 ∧ Sweeps a.1 (sweepSlot os a.1.clock a s).1 ∧
        DueAhead c a.1 (sweepSlot os a.1.clock a s).2 ∧
        (a.2 ≠ 0 → (sweepSlot os a.1.clock a s).2 ≠ 0 ∧ (sweepSlot os a.1.clock a s).2 ≤ a.2) ∧
        (0 < ((sweepSlot os a.1.clock a s).1.slots s).due → (sweepSlot os a.1.clock a s).2 ≠ 0 ∧
          (sweepSlot os a.1.clock a s).2 ≤ ((sweepSlot os a.1.clock a s).1.slots s).due) by
      obtain ⟨hbase, hsweeps, hahead', hless, hself⟩ := hone
      have hahead'' : DueAhead c (sweepSlot os a.1.clock a s).1 (sweepSlot os a.1.clock a s).2 := by
        unfold DueAhead
        rw [hsweeps.clock]
        exact hahead'
      obtain ⟨hb, hsw, hah, hle, hall⟩ := ih hbase hahead''
      rw [hsweeps.clock] at hb hsw hah hle hall
      rw [List.foldl_cons]
      refine ⟨hb, hsweeps.trans hsw, ?_, fun hne => ?_, fun u hu hpos => ?_⟩
      · unfold DueAhead at hah ⊢
        rwa [hsweeps.clock] at hah
      · obtain ⟨hne', hle'⟩ := hless hne
        exact ⟨(hle hne').1, Int.le_trans (hle hne').2 hle'⟩
      · rcases List.mem_cons.mp hu with rfl | hu
        · have hsame := hsw.dues u hpos
          rw [hsame] at hpos ⊢
          obtain ⟨hne', hle'⟩ := hself hpos
          exact ⟨(hle hne').1, Int.le_trans (hle hne').2 hle'⟩
        · exact hall u hu hpos
    have hdue := h.due_le s
    unfold sweepSlot
    dsimp only
    split
    · rename_i hle
      exact ⟨h, .refl, hahead, fun hne => ⟨hne, Int.le_refl _⟩, fun hpos => absurd hle (by omega)⟩
    · rename_i hpos
      split
      · rename_i hfar
        refine ⟨h, .refl, ?_, ?_, fun _ => ?_⟩
        · unfold DueAhead at hahead ⊢
          split <;> omega
        · intro hne
          split <;> omega
        · dsimp only
          split <;> omega
      · have hdone := flushSlot_ok (s := s) (o := os s) h (by omega)
        exact ⟨hdone.base, hdone.sweeps, hahead, fun hne => ⟨hne, Int.le_refl _⟩,
          fun hpos' => absurd hdone.due (Int.not_le.mpr hpos')⟩

/-- **The timer's firing** leaves it set for the earliest flush still owed, or not at all. -/
theorem Ok.flushStreams {os : Nat → Comment} (h : Base c l) :
    Ok c (flushStreams c l os lag) := by
  have h₀ : Base c { l with flushArmed := false } :=
    ⟨h.slot, h.clock, h.range, h.due_le, h.comments⟩
  obtain ⟨hbase, hsweeps, hahead, -, hall⟩ := foldl_sweepSlot os (List.range c.maxConns)
    (a := ({ l with flushArmed := false }, 0)) h₀ (.inl rfl)
  unfold FlushTimer.flushStreams
  dsimp only at hbase hsweeps hahead hall ⊢
  generalize (List.range c.maxConns).foldl (sweepSlot os l.clock) ({ l with flushArmed := false }, 0)
    = r at hbase hsweeps hahead hall ⊢
  obtain ⟨l', nextDue⟩ := r
  dsimp only at hbase hsweeps hahead hall ⊢
  have howed : ∀ s, 0 < (l'.slots s).due → nextDue ≠ 0 ∧ nextDue ≤ (l'.slots s).due := fun s hpos =>
    hall s (List.mem_range.mpr (hbase.range s (by omega))) hpos
  have hclock : l'.clock = l.clock := hsweeps.clock
  unfold DueAhead at hahead
  split
  · rename_i hne
    refine ⟨⟨hbase.slot, hbase.clock, hbase.range, hbase.due_le, hbase.comments⟩, fun _ _ => rfl,
      fun _ => ⟨_, rfl, ?_, fun s hpos => ?_⟩⟩
    · show l.clock + max ((nextDue - l.clock + 999999) / 1000000) 1 * 1000000 ≤
        l'.clock + c.sseFlushMs * 1000000 + 1000000
      have hahead : l.clock + 1000000 < nextDue ∧
        nextDue ≤ l.clock + c.sseFlushMs * 1000000 := hahead.resolve_left hne
      omega
    · have hle := (howed s hpos).2
      show l.clock + max ((nextDue - l.clock + 999999) / 1000000) 1 * 1000000 ≤ _ + 1000000
      have hahead : l.clock + 1000000 < nextDue ∧
        nextDue ≤ l.clock + c.sseFlushMs * 1000000 := hahead.resolve_left hne
      have hle : nextDue ≤ (l'.slots s).due := hle
      show _ ≤ (l'.slots s).due + 1000000
      omega
  · rename_i hzero
    refine ⟨⟨hbase.slot, hbase.clock, hbase.range, hbase.due_le, hbase.comments⟩, fun s hpos =>
      absurd (howed s hpos).1 hzero, fun harmed => ?_⟩
    have harmed : l'.flushArmed = true := harmed
    rw [hsweeps.armed] at harmed
    cases harmed

/-! ## Over a run -/

/-- A response opens one kind of stream. -/
def Op.OneKind : Op → Prop
  | .respond _ r _ => r.sseStreaming = true → r.upgradedWs = false
  | _ => True

theorem Ok.init {clock : Int} (hclock : 0 ≤ clock) : Ok c (.init clock) := by
  refine ⟨⟨fun _ => SlotOk.close .free, hclock, fun _ hne => absurd rfl hne, fun _ hpos => ?_,
    fun _ hx => nomatch hx⟩, fun _ hpos => ?_, fun harmed => nomatch harmed⟩
  · exact absurd hpos (Int.lt_irrefl 0)
  · exact absurd hpos (Int.lt_irrefl 0)

theorem Ok.accept (h : Ok c l) (hfree : (l.slots s).attached = false) :
    Ok c (l.set s fun x => { x with attached := true }) := by
  have hx := h.base.slot s
  have hkind := hx.gone hfree
  obtain ⟨hsse, hws⟩ := hx.request hkind
  have hdue := hx.due_of_not (.inl hsse)
  have hwhole := hx.whole (by rw [hkind]; decide)
  refine h.set ?_ (.inl rfl)
  constructor
  all_goals simp_all [FLUSH_AFTER_SEND]

theorem Ok.call (h : Ok c l) {op : Op} (hone : op.OneKind) (hs : ∀ s ∈ op.slot, s < c.maxConns) :
    Ok c (call c l op lag) := by
  cases op with
  | accept s =>
    simp only [FlushTimer.call]
    split
    · rename_i hfree
      exact h.accept hfree
    · exact h
  | respond s r sent =>
    simp only [FlushTimer.call]
    split
    · rename_i hready
      exact h.respond (hs s rfl) hone hready.1 hready.2
    · exact h
  | land s =>
    simp only [FlushTimer.call]
    split
    · rename_i hkind
      exact h.afterSend (hs s rfl) hkind
    · exact h
  | heartbeat s len zstdOk sent => exact h.heartbeat
  | wsReply s len closes sent =>
    simp only [FlushTimer.call]
    split
    · rename_i hsocket
      exact h.wsReply hsocket.1
    · exact h
  | drain s d => exact h.drainSlot (hs s rfl)
  | close s => exact h.close
  | fire os =>
    simp only [FlushTimer.call]
    split
    · split
      · exact Ok.flushStreams ⟨h.base.slot, h.base.clock, h.base.range, h.base.due_le, h.base.comments⟩
      · exact h
    · exact h
  | wait => exact h

/-- The time a call takes. -/
theorem Ok.passes (h : Ok c l) (lag : Nat) : Ok c { l with clock := l.clock + lag } := by
  have hclock := h.base.clock
  refine ⟨⟨h.base.slot, ?_, h.base.range, fun s hpos => ?_, h.base.comments⟩, h.clocked.armed,
    fun harmed => ?_⟩
  · show 0 ≤ l.clock + lag
    omega
  · have := h.base.due_le s hpos
    show (l.slots s).due ≤ l.clock + lag + c.sseFlushMs * 1000000
    omega
  · obtain ⟨t, ht, hbase, hdues⟩ := h.clocked.timer harmed
    refine ⟨t, ht, ?_, hdues⟩
    show t.base ≤ l.clock + lag + c.sseFlushMs * 1000000 + 1000000
    omega

theorem Ok.step (h : Ok c l) {o : Op × Nat} (hone : o.1.OneKind) : Ok c (step c l o) := by
  unfold FlushTimer.step
  split
  · rename_i hs
    exact (h.call hone hs).passes o.2
  · exact h.passes o.2

theorem Ok.runs {clock : Int} (hclock : 0 ≤ clock) (ops : List (Op × Nat))
    (hone : ∀ o ∈ ops, o.1.OneKind) : Ok c (runs c clock ops) := by
  unfold FlushTimer.runs
  have hinit : Ok c (.init clock) := .init hclock
  generalize Loop.init clock = l at hinit ⊢
  induction ops generalizing l with
  | nil => exact hinit
  | cons o ops ih =>
    exact ih (fun o' ho => hone o' (List.mem_cons_of_mem _ ho)) _
      (hinit.step (hone o List.mem_cons_self))

/-- **A marked slot is stamped afresh when its frame lands.** -/
theorem Ok.lands (h : Ok c l) (hmarked : (l.slots s).due = FLUSH_AFTER_SEND) (lag : Nat) :
    ((FlushTimer.step c l (.land s, lag)).slots s).due = l.clock + c.sseFlushMs * 1000000 := by
  have hx := h.base.slot s
  have hne : (l.slots s).due ≠ 0 := by
    rw [hmarked]
    decide
  obtain ⟨hms, hsse, hchannel, hcloses, -⟩ := hx.owed hne
  have hws := hx.one hsse
  have hkind := hx.marked hmarked
  have hs := h.base.range s hne
  have hmax : ∀ u ∈ (Op.land s).slot, u < c.maxConns := by
    rintro _ ⟨⟩
    exact hs
  have hms' : ¬ c.sseFlushMs ≤ 0 := by omega
  simp only [FlushTimer.step, FlushTimer.call, if_pos hmax, hkind, if_true, FlushTimer.afterSend, hcloses, hws, hsse, streamIdle,
    set_self, hmarked, Bool.false_eq_true, if_false, or_true, set_set, FlushTimer.oweFlush, Slot.owe, hms',
    hchannel, Bool.true_eq_false, or_self]
  split
  · simp only [Loop.set, Function.update_self]
  · simp only [Loop.set, Function.update_self]

/-- **A flush owed is a flush on the clock**: while a slot's due is positive the timer is armed, and
set to fire within a millisecond of every due, counted from the clock its call had read; a marked
slot is sending on a stream of events and is stamped afresh when its frame lands; and the comment is
written only to an open stream of events between two frames, no socket's and no channel's. -/
theorem flush_on_clock (c : Config) {clock : Int} (hclock : 0 ≤ clock) (ops : List (Op × Nat))
    (hone : ∀ o ∈ ops, o.1.OneKind) :
    let l := runs c clock ops
    (∀ s, 0 < (l.slots s).due → l.flushArmed = true ∧
      ∃ t, l.timer = some t ∧ ∀ u, 0 < (l.slots u).due → t.base ≤ (l.slots u).due + 1000000) ∧
    (∀ s, (l.slots s).due = FLUSH_AFTER_SEND →
      (l.slots s).kind = .responding ∧ (l.slots s).sse = true ∧
        ∀ lag, ((step c l (.land s, lag)).slots s).due = l.clock + c.sseFlushMs * 1000000) ∧
    ∀ x ∈ l.comments, x.Between := by
  have hok : Ok c (runs c clock ops) := .runs hclock ops hone
  refine ⟨fun s hpos => ?_, fun s hmarked => ?_, hok.base.comments⟩
  · have harmed := hok.clocked.armed s hpos
    obtain ⟨t, ht, -, hdues⟩ := hok.clocked.timer harmed
    exact ⟨harmed, t, ht, hdues⟩
  · have hx := hok.base.slot s
    have hne : ((runs c clock ops).slots s).due ≠ 0 := by
      rw [hmarked]
      decide
    exact ⟨hx.marked hmarked, (hx.owed hne).2.1, hok.lands hmarked⟩

/-- An answer that opens a stream with an event in its body. -/
def opening (upgrades : Bool) : Response := ⟨true, upgrades, false, false, false, 1, 1, false⟩

/-- It goes out of slot 0 whole, and the call takes `lag`. -/
def opens (upgrades : Bool) (lag : Nat) : List (Op × Nat) :=
  [(.accept 0, 0), (.respond 0 (opening upgrades) (.took 1 true), lag)]

theorem opens_flush : (runs ⟨1, 20, 0⟩ 0 (opens false 0)).flushArmed = true :=
  ((flush_on_clock ⟨1, 20, 0⟩ (Int.le_refl 0) (opens false 0) (by
    intro o ho
    simp only [opens, List.mem_cons, List.not_mem_nil, or_false] at ho
    rcases ho with rfl | rfl
    · trivial
    · exact fun _ => rfl)).1 0 (by decide)).1

/-- The timer of a call that takes five milliseconds fires later than one behind the due, and a
response that opens both kinds of stream has the comment written to a socket. -/
theorem late_and_socket :
    (¬ ∀ t, (runs ⟨1, 20, 0⟩ 0 (opens false 5000000)).timer = some t →
      t.base + t.lag ≤ ((runs ⟨1, 20, 0⟩ 0 (opens false 5000000)).slots 0).due + 1000000) ∧
    ¬ ∀ x ∈ (runs ⟨1, 20, 0⟩ 0 (opens true 0 ++
      [(.wait, 25000000), (.fire fun _ => ⟨true, 9, .failed⟩, 0)])).comments, x.ws = false := by
  refine ⟨fun h => ?_, fun h => ?_⟩
  · exact absurd (h ⟨20000000, 5000000⟩ rfl) (by decide)
  · exact absurd (List.all_eq_true.mpr fun x hx => (Bool.not_eq_true' _).mpr (h x hx))
      (by decide)

end MojoHttp.FlushTimer
