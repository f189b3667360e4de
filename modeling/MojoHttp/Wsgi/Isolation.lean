import MojoHttp.Lib.Execution
import MojoHttp.Wsgi.Slots

/-!
# Whose bytes a slot hands out (`handler.mojo`)

Producers, holds, drains and disconnects on one handler, in any order; what is published on the bus
comes between.

* **`Tenant`** — what the slot holds and has handed out are pieces of the stream it is subscribed to.
* **`World.Sound.step`** — every step keeps every slot so.
* **`World.isolated`** — the bytes of every stream of every run are its own.
* **`World.not_ownPrefix`** — a stream goes on behind a piece that its outbox refused.
-/

namespace MojoHttp

/-- A stream or a socket that a begin named. -/
structure Producer where
  slot : Int
  socket : Bool
  ended : Bool
  pieces : List (Bytes × Verdict)
  /-- What its slot has handed out while it was the stream's. -/
  handed : Bytes
  deriving Repr, DecidableEq

/-- The bytes of the pieces that the outbox took. -/
def takenBytes (pieces : List (Bytes × Verdict)) : Bytes :=
  pieces.flatMap fun piece => if piece.2 = .queued then piece.1 else []

def pieceBytes (pieces : List (Bytes × Verdict)) : Bytes := pieces.flatMap Prod.fst

namespace Producer

def refused (p : Producer) : Bool := p.pieces.any fun piece => piece.2 == .refused

/-- The stream is over: its producer has ended it, or it is a socket that lost a frame. -/
def isOver (p : Producer) : Bool := p.ended || p.socket && p.refused

end Producer

/-- The handler, and who has produced what. -/
structure World where
  h : WSGIHandler
  producers : Int → Option Producer

namespace World

/-- The slot's last stream was ended and drained, or disconnected. -/
def free (w : World) (slot : Int) : Bool := !w.h.sseIsStreaming slot && !w.h.isDone slot

def verdict (w : World) (slot : Int) (socket : Bool) (gen : Int) (frame : Bytes) : Verdict :=
  if w.h.inTable slot then (w.h.view slot).verdict socket gen frame else .dropped

/-- The stream that the slot is, or was last, subscribed to. -/
def tenant (w : World) (slot : Int) : Option Producer :=
  if w.h.inTable slot then w.producers (w.h.streamGen slot) else none

inductive Label where
  /-- A datagram of the chunk channel or of the bus; `counter` is what the shared counter holds. -/
  | frame (url : Bytes) (id : Int) (payload : Bytes) (counter : Int)
  | drain (slot : Int)
  | disconnected (slot : Int)
  deriving Repr, DecidableEq

/-- A begin, with a generation that no stream had before. -/
def begins (w : World) (slot : Int) (socket : Bool) (gen : Int) (h : WSGIHandler) : Option World :=
  if 0 < gen && (w.producers gen).isNone && w.free slot then
    some ⟨h, Function.update w.producers gen (some ⟨slot, socket, false, [], []⟩)⟩
  else none

/-- A frame of the stream that `gen` names, which has not ended; `ends` says that it ends it. -/
def sends (w : World) (slot : Int) (socket : Bool) (gen : Int) (pieces : List (Bytes × Verdict))
    (ends : Bool) (h : WSGIHandler) : Option World :=
  match w.producers gen with
  | none => none
  | some p =>
    if p.slot == slot && p.socket == socket && !p.ended then
      some ⟨h, Function.update w.producers gen
        (some { p with pieces := p.pieces ++ pieces, ended := ends })⟩
    else none

def next (w : World) : Label → Option World
  | .frame url id payload counter =>
    let h := w.h.ssePeerFrame url id payload counter []
    let slot := parseStreamSlot url
    if !isReserved url || slot < 0 then some { w with h := h }
    else
      match frameKind url with
      | some .begin => w.begins slot false id h
      | some .poolBegin => w.begins slot false id h
      | some .socketBegin => w.begins slot true id h
      | some .chunk => w.sends slot false id [(payload, w.verdict slot false id payload)] false h
      | some .socketFrame => w.sends slot true id [(payload, w.verdict slot true id payload)] false h
      | some .finish => w.sends slot false id [] true h
      | some .socketFinish =>
        w.sends slot true id
          (if payload.isEmpty then [] else [(payload, w.verdict slot true id payload)]) true h
      | some .hold => if w.free slot then some { w with h := h } else none
      | some .socketHold => if w.free slot then some { w with h := h } else none
      -- not a producer's
      | some .consumed => none
      | none => some { w with h := h }
  | .drain slot =>
    let drained := w.h.sseDrainSlot slot
    some ⟨drained.1,
      match w.tenant slot with
      | none => w.producers
      | some p => Function.update w.producers (w.h.streamGen slot)
        (some { p with handed := p.handed ++ drained.2 })⟩
  | .disconnected slot => some { w with h := w.h.sseSlotDisconnected slot }

/-- A handler that holds nothing, and no producer yet. -/
def initial (slots : Nat) (replayFrames : Int) (sharedId asgiNotify abortPool : Bool)
    (poolFd : Int → Bool) : World :=
  ⟨WSGIHandler.new slots replayFrames sharedId asgiNotify abortPool poolFd, fun _ => none⟩

def system (w : World) : LabelledSystem World Label := ⟨w, next⟩

end World

/-! ## What the pieces that were taken come to -/

/-- Only a piece that was refused is missing before one that was taken. -/
def NoHoles (pieces : List (Bytes × Verdict)) : Prop :=
  pieces.Pairwise fun a b => a.2 = .dropped → b.2 ≠ .queued

theorem takenBytes_append (as bs : List (Bytes × Verdict)) :
    takenBytes (as ++ bs) = takenBytes as ++ takenBytes bs := List.flatMap_append

/-- With none refused, the pieces taken come first. -/
theorem takenBytes_isPrefix {pieces : List (Bytes × Verdict)} (hholes : NoHoles pieces)
    (hnone : ∀ piece ∈ pieces, piece.2 ≠ .refused) : takenBytes pieces <+: pieceBytes pieces := by
  induction pieces with
  | nil => exact List.prefix_rfl
  | cons piece pieces ih =>
    have ⟨hfirst, hrest⟩ := List.pairwise_cons.mp hholes
    have hbehind := ih hrest fun p hp => hnone p (List.mem_cons_of_mem _ hp)
    unfold takenBytes pieceBytes at hbehind ⊢
    rw [List.flatMap_cons, List.flatMap_cons]
    cases hverdict : piece.2 with
    | queued =>
      rw [if_pos rfl]
      exact (List.prefix_append_right_inj _).mpr hbehind
    | refused => exact absurd hverdict (hnone piece List.mem_cons_self)
    | dropped =>
      -- none of the rest was taken
      have hempty : (pieces.flatMap fun piece => if piece.2 = Verdict.queued then piece.1 else []) = [] :=
        List.flatMap_eq_nil_iff.mpr fun p hp => if_neg (hfirst p hp hverdict)
      rw [hempty, if_neg (by decide)]
      exact List.nil_prefix

/-- With all of them taken, that is all there is. -/
theorem takenBytes_all {pieces : List (Bytes × Verdict)} (hall : ∀ piece ∈ pieces, piece.2 = .queued) :
    takenBytes pieces = pieceBytes pieces := by
  induction pieces with
  | nil => rfl
  | cons piece pieces ih =>
    unfold takenBytes pieceBytes at ih ⊢
    rw [List.flatMap_cons, List.flatMap_cons, if_pos (hall piece List.mem_cons_self),
      ih fun p hp => hall p (List.mem_cons_of_mem _ hp)]

/-! ## One slot and its stream -/

/-- The slot is subscribed to nothing that it does not stream, and to one thing at most. -/
structure Slot.Ok (v : Slot) : Prop where
  one : v.stream.isStreaming = true → v.socket.isStreaming = false
  empty : ∀ socket, (v.row socket).isStreaming = false → (v.row socket).pendingBuf = []

/-- What the slot that a stream was begun on holds for it. -/
structure Tenant (slot : Int) (v : Slot) (p : Producer) : Prop where
  slot : p.slot = slot
  other : (v.row (!p.socket)).isStreaming = false
  account : p.handed ++ (v.row p.socket).pendingBuf = takenBytes p.pieces
  /-- Its name is no application's channel. -/
  name : (v.row p.socket).isStreaming = true → isReserved (v.row p.socket).filterUrl = true
  here : (v.row p.socket).isStreaming = true → ∀ piece ∈ p.pieces, piece.2 ≠ .dropped
  gone : (v.row p.socket).isStreaming = false → p.isOver = true
  done : v.done = true → p.isOver = true
  ended : p.ended = true → (v.row p.socket).isStreaming = true → v.done = true
  kept : p.refused = false → ∀ piece ∈ p.pieces, piece.2 ≠ .dropped

structure Producer.Ok (p : Producer) : Prop where
  own : p.handed <+: takenBytes p.pieces
  holes : NoHoles p.pieces

namespace Producer

variable {p : Producer}

theorem Ok.opened (slot : Int) (socket : Bool) : Producer.Ok ⟨slot, socket, false, [], []⟩ :=
  ⟨List.prefix_rfl, List.Pairwise.nil⟩

theorem over_of_refused (hsocket : p.socket = true) {frame : Bytes} {verdict : Verdict}
    (hverdict : verdict = .refused) (ended : Bool) :
    ({ p with pieces := p.pieces ++ [(frame, verdict)], ended := ended } : Producer).isOver = true := by
  have hrefused : (p.pieces ++ [(frame, verdict)]).any (fun piece => piece.2 == .refused) = true := by
    rw [List.any_append, hverdict]
    exact Bool.or_true _
  show (ended || p.socket && _) = true
  rw [hsocket, refused, hrefused]
  exact Bool.or_true _

theorem refused_of_append {frame : Bytes} {verdict : Verdict} {ended : Bool}
    (h : ({ p with pieces := p.pieces ++ [(frame, verdict)], ended := ended } : Producer).refused = false) :
    p.refused = false := by
  unfold refused at h
  rw [List.any_append, Bool.or_eq_false_iff] at h
  exact h.1

theorem over_more (hover : p.isOver = true) (pieces : List (Bytes × Verdict)) (hrunning : p.ended = false)
    (ended : Bool) : ({ p with pieces := p.pieces ++ pieces, ended := ended } : Producer).isOver = true := by
  unfold isOver refused at hover ⊢
  rw [hrunning, Bool.false_or, Bool.and_eq_true] at hover
  rw [hover.1, List.any_append, hover.2]
  exact Bool.or_true _

end Producer

namespace Slot

variable {v : Slot} {socket : Bool}

theorem Ok.row_not (hok : v.Ok) (socket : Bool) (hstreaming : (v.row socket).isStreaming = true) :
    (v.row (!socket)).isStreaming = false := by
  cases socket with
  | false => exact hok.one hstreaming
  | true =>
    cases hrow : v.stream.isStreaming with
    | false => exact hrow
    | true => exact nomatch (hok.one hrow).symm.trans hstreaming

/-- Another row, where the other registry streams nothing. -/
theorem Ok.setRow (hok : v.Ok) {row : Subscription} (hother : (v.row (!socket)).isStreaming = false)
    (hempty : row.isStreaming = false → row.pendingBuf = []) : (v.setRow row socket).Ok := by
  cases socket with
  | false =>
    refine ⟨fun _ => hother, fun socket => ?_⟩
    cases socket with
    | false => exact hempty
    | true => exact hok.empty true
  | true =>
    refine ⟨fun hyes => (nomatch hother.symm.trans hyes), fun socket => ?_⟩
    cases socket with
    | false => exact hok.empty false
    | true => exact hempty

/-- What is not a row does not matter. -/
theorem Ok.marks (hok : v.Ok) (gen : Int) (done lost : Bool) :
    ({ v with gen := gen, done := done, lost := lost } : Slot).Ok :=
  ⟨hok.one, fun socket => by
    have hempty := hok.empty socket
    cases socket with
    | false => exact hempty
    | true => exact hempty⟩

theorem Ok.drain (hok : v.Ok) (hdone : v.done = false) : v.drain.1.Ok := by
  rw [drain_eq rfl, hdone, if_neg (by decide)]
  have hother : (v.row (!v.socket.isStreaming)).isStreaming = false := by
    cases hsocket : v.socket.isStreaming with
    | false => exact hsocket
    | true => exact hok.row_not true hsocket
  exact hok.setRow hother fun _ => rfl

theorem ok_disconnected : disconnected.Ok :=
  ⟨fun hyes => (nomatch hyes), fun socket _ => by cases socket <;> rfl⟩

end Slot

section

variable {slot : Int} {v : Slot} {p : Producer}

/-- A begin on a slot that streams nothing. -/
theorem tenant_begin (slot : Int) (hok : v.Ok)
    (hfree : ∀ socket, (v.row socket).isStreaming = false) (socket : Bool)
    {url : Bytes} (hurl : isReserved url = true) (gen : Int) :
    (v.begin socket url gen).Ok ∧ Tenant slot (v.begin socket url gen) ⟨slot, socket, false, [], []⟩ := by
  have hrow : (v.begin socket url gen).row socket = { v.row socket with
      isStreaming := true, filterUrl := url, lastEventId := NO_EVENT_ID } := by
    cases socket <;> rfl
  have hother : (v.begin socket url gen).row (!socket) = v.row (!socket) := by
    cases socket <;> rfl
  have hsubscribed : (v.setRow { v.row socket with
      isStreaming := true, filterUrl := url, lastEventId := NO_EVENT_ID } socket).Ok :=
    hok.setRow (hfree !socket) fun hno => nomatch hno
  refine ⟨hsubscribed.marks gen false false, rfl, ?_, ?_, fun _ => ?_,
    fun _ _ hp => absurd hp List.not_mem_nil, fun hno => ?_, fun hno => (nomatch hno),
    fun hno => (nomatch hno), fun _ _ hp => absurd hp List.not_mem_nil⟩
  · rw [hother, hfree]
  · show [] ++ ((v.begin socket url gen).row socket).pendingBuf = []
    rw [hrow]
    exact hok.empty socket (hfree socket)
  · rw [hrow]
    exact hurl
  · rw [hrow] at hno
    cases hno

theorem verdict_mine {gen : Int} (hgen : v.gen = gen) (socket : Bool) (frame : Bytes) :
    v.verdict socket gen frame =
      if (v.row socket).isStreaming then
        if (v.row socket).takes NO_EVENT_ID frame then .queued else .refused
      else .dropped := by
  unfold Slot.verdict
  rw [hgen, beq_self_eq_true, Bool.and_true]

/-- A piece of the slot's own stream. -/
theorem tenant_piece (hok : v.Ok) (ht : Tenant slot v p) (hrunning : p.ended = false) {gen : Int}
    (hgen : v.gen = gen) (frame : Bytes) :
    (v.piece p.socket gen frame).Ok ∧ Tenant slot (v.piece p.socket gen frame)
      { p with pieces := p.pieces ++ [(frame, v.verdict p.socket gen frame)], ended := false } := by
  cases hstreaming : (v.row p.socket).isStreaming with
  | false =>
    -- the socket has ended, and its frames are dropped
    have hpiece : v.piece p.socket gen frame = v :=
      Slot.piece_of_other p.socket (by rw [hstreaming, Bool.false_and]) frame
    have hverdict : v.verdict p.socket gen frame = .dropped := by
      rw [verdict_mine hgen, hstreaming, if_neg (by decide)]
    rw [hpiece, hverdict]
    refine ⟨hok, ht.slot, ht.other, ?_, ht.name, fun hyes => (nomatch hstreaming.symm.trans hyes),
      fun hno => Producer.over_more (ht.gone hno) _ hrunning false,
      fun hdone => Producer.over_more (ht.done hdone) _ hrunning false, fun hno => (nomatch hno),
      fun hnone => ?_⟩
    swap
    · -- a stream that has not ended is subscribed, unless a piece was refused
      have hover := ht.gone hstreaming
      rw [Producer.isOver, hrunning, Bool.false_or, Bool.and_eq_true] at hover
      exact nomatch (Producer.refused_of_append hnone).symm.trans hover.2
    show _ = takenBytes (p.pieces ++ [(frame, .dropped)])
    rw [takenBytes_append]
    exact ht.account.trans (List.append_nil _).symm
  | true =>
    have hpiece := Slot.piece_of_mine p.socket
      (by rw [hstreaming, hgen, beq_self_eq_true, Bool.true_and] :
        ((v.row p.socket).isStreaming && v.gen == gen) = true) frame
    have hverdict := verdict_mine hgen p.socket frame
    rw [hstreaming, if_pos rfl] at hverdict
    have hhere : ∀ verdict : Verdict, verdict ≠ .dropped →
        ∀ piece ∈ p.pieces ++ [(frame, verdict)], piece.2 ≠ .dropped := by
      intro verdict hne piece hp
      rcases List.mem_append.mp hp with hp | hp
      · exact ht.here hstreaming piece hp
      · rw [List.mem_singleton.mp hp]
        exact hne
    split at hpiece
    · next htakes =>
      rw [if_pos htakes] at hverdict
      rw [hpiece, hverdict]
      refine ⟨hok.setRow ht.other fun hno => (nomatch hstreaming.symm.trans hno), ht.slot, ?_, ?_, ?_,
        fun _ => hhere _ (fun hno => nomatch hno), ?_, ?_, fun hno => (nomatch hno),
        fun _ => hhere _ (fun hno => nomatch hno)⟩
      · rw [Slot.row_setRow_not]
        exact ht.other
      · show p.handed ++ ((v.setRow _ p.socket).row p.socket).pendingBuf =
          takenBytes (p.pieces ++ [(frame, .queued)])
        rw [Slot.row_setRow, takenBytes_append, ← ht.account, List.append_assoc]
        exact congrArg _ (congrArg _ (List.append_nil _).symm)
      · rw [Slot.row_setRow]
        exact ht.name
      · intro hno
        rw [Slot.row_setRow] at hno
        exact nomatch hstreaming.symm.trans hno
      · rw [Slot.done_setRow]
        exact fun hdone => Producer.over_more (ht.done hdone) _ hrunning false
    · next htakes =>
      rw [if_neg htakes] at hverdict
      have haccount : p.handed ++ (v.row p.socket).pendingBuf =
          takenBytes (p.pieces ++ [(frame, .refused)]) := by
        rw [takenBytes_append]
        exact ht.account.trans (List.append_nil _).symm
      rw [hpiece, hverdict]
      split
      · refine ⟨hok, ht.slot, ht.other, haccount, ht.name, fun _ => hhere _ (fun hno => nomatch hno),
          fun hno => (nomatch hstreaming.symm.trans hno),
          fun hdone => Producer.over_more (ht.done hdone) _ hrunning false, fun hno => (nomatch hno),
          fun _ => hhere _ (fun hno => nomatch hno)⟩
      · refine ⟨hok.marks v.gen (v.done || p.socket) true, ht.slot, ht.other, haccount, ht.name,
          fun _ => hhere _ (fun hno => nomatch hno), fun hno => (nomatch hstreaming.symm.trans hno),
          fun hdone => ?_, fun hno => (nomatch hno), fun _ => hhere _ (fun hno => nomatch hno)⟩
        -- the refusal ends a socket
        rcases Bool.or_eq_true_iff.mp hdone with hdone | hsocket
        · exact Producer.over_more (ht.done hdone) _ hrunning false
        · exact Producer.over_of_refused hsocket rfl false

/-- The end of the slot's own stream. -/
theorem tenant_finish (hok : v.Ok) (ht : Tenant slot v p) {gen : Int} (hgen : v.gen = gen) :
    (v.finish p.socket gen).Ok ∧ Tenant slot (v.finish p.socket gen) { p with ended := true } := by
  by_cases hpending : 0 < (v.row p.socket).pendingBuf.length
  · rw [Slot.finish_of_pending p.socket hgen hpending]
    exact ⟨hok.marks v.gen true v.lost, ht.slot, ht.other, ht.account, ht.name, ht.here, fun _ => rfl,
      fun _ => rfl, fun _ _ => rfl, ht.kept⟩
  · rw [Slot.finish_of_empty p.socket hgen hpending]
    have hempty : (v.row p.socket).pendingBuf = [] := List.length_eq_zero_iff.mp (by omega)
    refine ⟨hok.setRow ht.other fun _ => rfl, ht.slot, ?_, ?_, ?_, ?_, fun _ => rfl, fun _ => rfl, ?_,
      ht.kept⟩
    · rw [Slot.row_setRow_not]
      exact ht.other
    · rw [Slot.row_setRow]
      have haccount := ht.account
      rw [hempty] at haccount
      exact haccount
    · rw [Slot.row_setRow]
      exact fun hno => nomatch hno
    · rw [Slot.row_setRow]
      exact fun hno => nomatch hno
    · rw [Slot.row_setRow]
      exact fun _ hno => nomatch hno

/-- The end of the slot's own socket, with its Close. -/
theorem tenant_socketFinish (hok : v.Ok) (ht : Tenant slot v p) (hrunning : p.ended = false)
    (hsocket : p.socket = true) {gen : Int} (hgen : v.gen = gen) (frame : Bytes) :
    (v.socketFinish gen frame).Ok ∧ Tenant slot (v.socketFinish gen frame)
      { p with
        pieces := p.pieces ++ if frame.isEmpty then [] else [(frame, v.verdict true gen frame)]
        ended := true } := by
  obtain ⟨slot', socket, ended, pieces, handed⟩ := p
  dsimp only at hsocket
  subst hsocket
  unfold Slot.socketFinish
  split
  · rw [List.append_nil]
    exact tenant_finish hok ht hgen
  · have ⟨hok', ht'⟩ := tenant_piece hok ht hrunning hgen frame
    have hgen' : (v.piece true gen frame).gen = gen := by rw [Slot.gen_piece, hgen]
    exact tenant_finish hok' ht' hgen'

/-- A drain of the slot: the bytes are its stream's. -/
theorem tenant_drain (hok : v.Ok) (ht : Tenant slot v p) :
    v.drain.1.Ok ∧ Tenant slot v.drain.1 { p with handed := p.handed ++ v.drain.2 } ∧
      v.drain.1.done = false := by
  cases hstreaming : (v.row p.socket).isStreaming with
  | false =>
    -- neither streams, and there is nothing to hand out
    have hboth : ∀ socket, (v.row socket).isStreaming = false := by
      intro socket
      have hother := ht.other
      cases socket <;> cases hs : p.socket <;> rw [hs] at hstreaming hother <;> assumption
    have hpending : ∀ socket, (v.row socket).pendingBuf = [] := fun socket => hok.empty socket (hboth socket)
    rw [Slot.drain_eq (hboth true), hpending false, List.append_nil]
    have hrows : ∀ v' : Slot, v'.row true = v.row true → (v'.row false).isStreaming = false →
        (v'.row false).pendingBuf = [] → v'.done = false →
        v'.Ok ∧ Tenant slot v' p ∧ v'.done = false := by
      intro v' htrue hfalse hnone hdone
      have hstill : ∀ socket, (v'.row socket).isStreaming = false ∧ (v'.row socket).pendingBuf = [] := by
        intro socket
        cases socket with
        | false => exact ⟨hfalse, hnone⟩
        | true =>
          rw [htrue]
          exact ⟨hboth true, hpending true⟩
      refine ⟨⟨fun hyes => (nomatch hfalse.symm.trans hyes), fun socket _ => (hstill socket).2⟩,
        ⟨ht.slot, (hstill _).1, ?_, fun hyes => (nomatch (hstill _).1.symm.trans hyes),
          fun hyes => (nomatch (hstill _).1.symm.trans hyes), fun _ => ht.gone hstreaming,
          fun hyes => (nomatch hdone.symm.trans hyes),
          fun _ hyes => (nomatch (hstill _).1.symm.trans hyes), ht.kept⟩, hdone⟩
      have haccount := ht.account
      rw [hpending] at haccount
      rw [(hstill _).2]
      exact haccount
    split
    · exact hrows _ rfl rfl rfl rfl
    · next hdone => exact hrows _ rfl (hboth false) rfl (Bool.eq_false_iff.mpr hdone)
  | true =>
    have hsocket : v.socket.isStreaming = p.socket := by
      have hother := ht.other
      cases hs : p.socket with
      | false =>
        rw [hs] at hother
        exact hother
      | true =>
        rw [hs] at hstreaming
        exact hstreaming
    rw [Slot.drain_eq hsocket]
    have haccount : p.handed ++ (v.row p.socket).pendingBuf ++ [] = takenBytes p.pieces :=
      (List.append_nil _).trans ht.account
    split
    · next hdone =>
      refine ⟨(hok.setRow ht.other fun _ => rfl).marks _ false _, ⟨ht.slot, ?_, ?_, ?_, ?_,
        fun _ => ht.done hdone, fun hno => (nomatch hno), ?_, ht.kept⟩, rfl⟩
      · show ((v.setRow {} p.socket).row (!p.socket)).isStreaming = false
        rw [Slot.row_setRow_not]
        exact ht.other
      · show _ ++ ((v.setRow {} p.socket).row p.socket).pendingBuf = _
        rw [Slot.row_setRow]
        exact haccount
      · show ((v.setRow {} p.socket).row p.socket).isStreaming = true → _
        rw [Slot.row_setRow]
        exact fun hno => nomatch hno
      · show ((v.setRow {} p.socket).row p.socket).isStreaming = true → _
        rw [Slot.row_setRow]
        exact fun hno => nomatch hno
      · show _ → ((v.setRow {} p.socket).row p.socket).isStreaming = true → _
        rw [Slot.row_setRow]
        exact fun _ hno => nomatch hno
    · next hdone =>
      have hnot : v.done = false := Bool.eq_false_iff.mpr hdone
      refine ⟨hok.setRow ht.other fun _ => rfl, ⟨ht.slot, ?_, ?_, ?_, ?_, ?_, ?_, ?_, ht.kept⟩, ?_⟩
      · rw [Slot.row_setRow_not]
        exact ht.other
      · rw [Slot.row_setRow]
        exact haccount
      · rw [Slot.row_setRow]
        exact ht.name
      · rw [Slot.row_setRow]
        exact ht.here
      · rw [Slot.row_setRow]
        exact ht.gone
      · rw [Slot.done_setRow]
        exact ht.done
      · rw [Slot.row_setRow, Slot.done_setRow]
        exact ht.ended
      · rw [Slot.done_setRow]
        exact hnot

end

/-! ## Every slot, and every stream -/

namespace World

structure Sound (w : World) : Prop where
  shaped : w.h.Shaped
  ok : ∀ slot, w.h.inTable slot = true → (w.h.view slot).Ok
  tenant : ∀ slot, w.h.inTable slot = true → 0 < (w.h.view slot).gen →
    ∃ p, w.producers (w.h.view slot).gen = some p ∧ Tenant slot (w.h.view slot) p
  /-- A hold has no end of its own. -/
  held : ∀ slot, w.h.inTable slot = true → (w.h.view slot).gen ≤ 0 → (w.h.view slot).done = false
  known : ∀ gen p, w.producers gen = some p → 0 < gen ∧ p.Ok

theorem sound_initial (slots : Nat) (replayFrames : Int) (sharedId asgiNotify abortPool : Bool)
    (poolFd : Int → Bool) :
    Sound (initial slots replayFrames sharedId asgiNotify abortPool poolFd) where
  shaped := ⟨rfl, rfl⟩
  ok _ _ := ⟨fun _ => rfl, fun socket _ => by cases socket <;> rfl⟩
  tenant _ _ hgen := absurd (show (0 : Int) < 0 from hgen) (by decide)
  held _ _ _ := rfl
  known _ _ hp := nomatch hp

variable {w w' : World}

/-- One slot changes, and what the others' streams have produced does not. -/
theorem Sound.acts (hw : w.Sound) {h' : WSGIHandler} {slot : Int} {f : Slot → Slot}
    (ha : WSGIHandler.Acts w.h h' slot f) {producers : Int → Option Producer}
    (hself : w.h.inTable slot = true → (f (w.h.view slot)).Ok ∧
      (0 < (f (w.h.view slot)).gen →
        ∃ p, producers (f (w.h.view slot)).gen = some p ∧ Tenant slot (f (w.h.view slot)) p) ∧
      ((f (w.h.view slot)).gen ≤ 0 → (f (w.h.view slot)).done = false))
    (hothers : ∀ s, w.h.inTable s = true → s ≠ slot → 0 < (w.h.view s).gen →
      producers (w.h.view s).gen = w.producers (w.h.view s).gen)
    (hknown : ∀ gen p, producers gen = some p → 0 < gen ∧ p.Ok) : Sound ⟨h', producers⟩ := by
  have hslot : ∀ s, w.h.inTable s = true → (h'.view s).Ok ∧
      (0 < (h'.view s).gen → ∃ p, producers (h'.view s).gen = some p ∧ Tenant s (h'.view s) p) ∧
      ((h'.view s).gen ≤ 0 → (h'.view s).done = false) := by
    intro s hin
    by_cases heq : s = slot
    · subst heq
      rw [ha.self hin]
      exact hself hin
    · rw [ha.other s (Or.inl heq)]
      refine ⟨hw.ok s hin, fun hpos => ?_, hw.held s hin⟩
      obtain ⟨p, hp, ht⟩ := hw.tenant s hin hpos
      exact ⟨p, (hothers s hin heq hpos).trans hp, ht⟩
  refine ⟨hw.shaped.acts ha, fun s hin => ?_, fun s hin => ?_, fun s hin => ?_, hknown⟩
  · exact (hslot s ((ha.inTable s).symm.trans hin)).1
  · exact (hslot s ((ha.inTable s).symm.trans hin)).2.1
  · exact (hslot s ((ha.inTable s).symm.trans hin)).2.2

/-- A stream is on one slot only. -/
theorem Sound.others (hw : w.Sound) {gen : Int} {p : Producer} (hp : w.producers gen = some p) {s : Int}
    (hin : w.h.inTable s = true) (hne : s ≠ p.slot) (hpos : 0 < (w.h.view s).gen)
    (producer : Option Producer) :
    Function.update w.producers gen producer (w.h.view s).gen = w.producers (w.h.view s).gen := by
  apply Function.update_of_ne
  intro heq
  obtain ⟨q, hq, ht⟩ := hw.tenant s hin hpos
  rw [heq, hp] at hq
  cases hq
  exact hne ht.slot.symm

theorem Sound.row_of_free (hw : w.Sound) {slot : Int} (hin : w.h.inTable slot = true)
    (hfree : w.free slot = true) :
    (∀ socket, ((w.h.view slot).row socket).isStreaming = false) ∧ (w.h.view slot).done = false := by
  have ⟨hstreaming, hdone⟩ := Bool.and_eq_true_iff.mp hfree
  rw [WSGIHandler.sseIsStreaming, hw.shaped.isSlotStreaming_streams, hw.shaped.isSlotStreaming_sockets, hin,
    Bool.true_and, Bool.true_and, Bool.not_eq_true', Bool.or_eq_false_iff] at hstreaming
  rw [WSGIHandler.isDone, hin, Bool.true_and, Bool.not_eq_true'] at hdone
  refine ⟨fun socket => ?_, hdone⟩
  cases socket with
  | false => exact hstreaming.1
  | true => exact hstreaming.2

theorem Sound.begins (hw : w.Sound) {slot gen : Int} {socket : Bool} {url : Bytes} {h' : WSGIHandler}
    (hurl : isReserved url = true)
    (ha : WSGIHandler.Acts w.h h' slot fun v => v.begin socket url gen)
    (hnext : w.begins slot socket gen h' = some w') : w'.Sound := by
  unfold World.begins at hnext
  split at hnext
  · next hguard =>
    cases hnext
    have ⟨hnew, hfree⟩ := Bool.and_eq_true_iff.mp hguard
    have ⟨hpos, hnone⟩ := Bool.and_eq_true_iff.mp hnew
    have hpos : 0 < gen := of_decide_eq_true hpos
    have hnone : w.producers gen = none := Option.isNone_iff_eq_none.mp hnone
    apply hw.acts ha
    · intro hin
      have ⟨hok, ht⟩ := tenant_begin slot (hw.ok slot hin) (hw.row_of_free hin hfree).1 socket hurl gen
      refine ⟨hok, fun _ => ⟨_, Function.update_self .., ht⟩, fun hle => ?_⟩
      have hgen : ((w.h.view slot).begin socket url gen).gen = gen := rfl
      omega
    · intro s hin _ hgen
      apply Function.update_of_ne
      intro heq
      obtain ⟨q, hq, _⟩ := hw.tenant s hin hgen
      rw [heq, hnone] at hq
      cases hq
    · intro g p hp
      rcases Decidable.em (g = gen) with rfl | hne
      · rw [Function.update_self] at hp
        cases hp
        exact ⟨hpos, Producer.Ok.opened slot socket⟩
      · rw [Function.update_of_ne hne] at hp
        exact hw.known g p hp
  · cases hnext

/-- What a producer's frame may append to its pieces. -/
theorem Sound.noHoles (hw : w.Sound) {slot gen : Int} {p : Producer} (hp : w.producers gen = some p)
    (frame : Bytes) : NoHoles (p.pieces ++ [(frame, w.verdict slot p.socket gen frame)]) := by
  have ⟨hpos, hok⟩ := hw.known gen p hp
  refine List.pairwise_append.mpr ⟨hok.holes, List.pairwise_singleton .., fun a ha b hb hdropped => ?_⟩
  rw [List.mem_singleton.mp hb]
  intro hqueued
  -- a piece is taken from the slot's own stream only, none of whose pieces was dropped
  have hverdict : w.verdict slot p.socket gen frame = .queued := hqueued
  unfold verdict Slot.verdict at hverdict
  split at hverdict
  · next hin =>
    split at hverdict
    · next hmine =>
      have ⟨hstreaming, hgen⟩ := Bool.and_eq_true_iff.mp hmine
      have hgen : (w.h.view slot).gen = gen := eq_of_beq hgen
      obtain ⟨q, hq, ht⟩ := hw.tenant slot hin (by rw [hgen]; exact hpos)
      rw [hgen, hp] at hq
      cases hq
      exact ht.here hstreaming a ha hdropped
    · cases hverdict
  · cases hverdict

theorem Sound.sends (hw : w.Sound) {slot gen : Int} {socket ends : Bool}
    {pieces : List (Bytes × Verdict)} {h' : WSGIHandler} {f : Slot → Slot}
    (ha : WSGIHandler.Acts w.h h' slot f)
    (hmine : ∀ p : Producer, w.h.inTable slot = true → (w.h.view slot).gen = gen → p.socket = socket →
      p.ended = false → (w.h.view slot).Ok → Tenant slot (w.h.view slot) p →
      (f (w.h.view slot)).Ok ∧ Tenant slot (f (w.h.view slot))
        { p with pieces := p.pieces ++ pieces, ended := ends })
    (hother : (w.h.view slot).gen ≠ gen → f (w.h.view slot) = w.h.view slot)
    (hgen : (f (w.h.view slot)).gen = (w.h.view slot).gen)
    (hholes : ∀ p : Producer, w.producers gen = some p → p.socket = socket → NoHoles (p.pieces ++ pieces))
    (hnext : w.sends slot socket gen pieces ends h' = some w') : w'.Sound := by
  unfold World.sends at hnext
  split at hnext
  · cases hnext
  · next p hp =>
    split at hnext
    · next hguard =>
      cases hnext
      have ⟨hwho, hrunning⟩ := Bool.and_eq_true_iff.mp hguard
      have ⟨hslot, hsocket⟩ := Bool.and_eq_true_iff.mp hwho
      have hslot : p.slot = slot := eq_of_beq hslot
      have hsocket : p.socket = socket := eq_of_beq hsocket
      have hrunning : p.ended = false := by rwa [Bool.not_eq_true'] at hrunning
      have ⟨hpos, hok⟩ := hw.known gen p hp
      apply hw.acts ha
      · intro hin
        rw [hgen]
        by_cases heq : (w.h.view slot).gen = gen
        · obtain ⟨q, hq, ht⟩ := hw.tenant slot hin (by rw [heq]; exact hpos)
          rw [heq, hp] at hq
          cases hq
          have ⟨hok', ht'⟩ := hmine p hin heq hsocket hrunning (hw.ok slot hin) ht
          refine ⟨hok', fun _ => ⟨_, ?_, ht'⟩, fun hle => absurd hle (by omega)⟩
          rw [heq, Function.update_self]
        · rw [hother heq]
          refine ⟨hw.ok slot hin, fun hpos' => ?_, hw.held slot hin⟩
          rw [Function.update_of_ne heq]
          exact hw.tenant slot hin hpos'
      · intro s hin hne hpos'
        exact hw.others hp hin (by rw [hslot]; exact hne) hpos' _
      · intro g q hq
        rcases Decidable.em (g = gen) with rfl | hne
        · rw [Function.update_self] at hq
          cases hq
          refine ⟨hpos, ?_, hholes p hp hsocket⟩
          show p.handed <+: takenBytes (p.pieces ++ pieces)
          rw [takenBytes_append]
          exact hok.own.trans (List.prefix_append _ _)
        · rw [Function.update_of_ne hne] at hq
          exact hw.known g q hq
    · cases hnext

/-- A hold on a free slot. -/
theorem Sound.hold (hw : w.Sound) {slot : Int} {socket : Bool} {row : Subscription} {h' : WSGIHandler}
    (hrow : row.isStreaming = true) (ha : WSGIHandler.Acts w.h h' slot fun v => v.hold socket row)
    (hfree : w.free slot = true) : Sound ⟨h', w.producers⟩ := by
  refine hw.acts ha (fun hin => ?_) (fun _ _ _ _ => rfl) hw.known
  have ⟨hrows, hdone⟩ := hw.row_of_free hin hfree
  have hset : ((w.h.view slot).setRow row socket).Ok :=
    (hw.ok slot hin).setRow (hrows !socket) fun hno => nomatch hrow.symm.trans hno
  refine ⟨hset.marks STREAM_GEN_HELD _ false, fun hpos => ?_, fun _ => ?_⟩
  · exact absurd hpos (by decide : ¬ 0 < STREAM_GEN_HELD)
  · show ((w.h.view slot).setRow row socket).done = false
    rw [Slot.done_setRow]
    exact hdone

theorem Sound.drain (hw : w.Sound) {slot : Int} (hnext : w.next (.drain slot) = some w') : w'.Sound := by
  have ha := WSGIHandler.acts_sseDrainSlot hw.shaped slot
  cases hnext
  cases hin : w.h.inTable slot with
  | false =>
    have hnone : w.tenant slot = none := by
      unfold World.tenant
      rw [hin, if_neg (by decide)]
    rw [hnone]
    exact hw.acts ha (fun hyes => nomatch hin.symm.trans hyes) (fun _ _ _ _ => rfl) hw.known
  | true =>
    have hout := WSGIHandler.drained_sseDrainSlot hw.shaped hin
    have hwho : w.tenant slot = w.producers (w.h.view slot).gen := by
      unfold World.tenant
      rw [hin, if_pos rfl]
      rfl
    by_cases hpos : 0 < (w.h.view slot).gen
    · obtain ⟨p, hp, ht⟩ := hw.tenant slot hin hpos
      have ⟨hok', ht', hdone⟩ := tenant_drain (hw.ok slot hin) ht
      have hgen : (w.h.view slot).drain.1.gen = (w.h.view slot).gen := Slot.gen_drain _
      rw [hwho.trans hp]
      apply hw.acts ha
      · intro _
        rw [hgen, hout]
        exact ⟨hok', fun _ => ⟨_, Function.update_self .., ht'⟩, fun _ => hdone⟩
      · intro s hin' hne hpos'
        exact hw.others hp hin' (by rw [ht.slot]; exact hne) hpos' _
      · intro g q hq
        have hsame : Function.update w.producers (w.h.view slot).gen
            (some { p with handed := p.handed ++ (w.h.sseDrainSlot slot).2 }) g = some q := hq
        rcases Decidable.em (g = (w.h.view slot).gen) with rfl | hne
        · rw [Function.update_self] at hsame
          cases hsame
          refine ⟨hpos, ?_, (hw.known _ p hp).2.holes⟩
          show p.handed ++ (w.h.sseDrainSlot slot).2 <+: takenBytes p.pieces
          have haccount := ht'.account
          rw [hout, ← haccount]
          exact List.prefix_append _ _
        · rw [Function.update_of_ne hne] at hsame
          exact hw.known g q hsame
    · have hle : (w.h.view slot).gen ≤ 0 := by omega
      have hdone := hw.held slot hin hle
      have hnone : w.tenant slot = none := by
        rw [hwho]
        cases hp : w.producers (w.h.view slot).gen with
        | none => rfl
        | some p => exact absurd (hw.known _ p hp).1 hpos
      rw [hnone]
      refine hw.acts ha (fun _ => ⟨(hw.ok slot hin).drain hdone, fun hpos' => ?_, fun _ => ?_⟩)
        (fun _ _ _ _ => rfl) hw.known
      · rw [Slot.gen_drain] at hpos'
        exact absurd hpos' hpos
      · exact Slot.done_drain _

theorem Sound.disconnected (hw : w.Sound) (slot : Int) :
    Sound ⟨w.h.sseSlotDisconnected slot, w.producers⟩ := by
  refine hw.acts (WSGIHandler.acts_sseSlotDisconnected hw.shaped slot) (fun _ => ?_) (fun _ _ _ _ => rfl)
    hw.known
  exact ⟨Slot.ok_disconnected, fun hpos => absurd hpos (by decide), fun _ => rfl⟩

/-- A published frame is for none that a begin subscribed. -/
theorem Sound.published (hw : w.Sound) {url : Bytes} (hurl : isReserved url = false) (eventId : Int)
    (frame : Bytes) : Sound ⟨w.h.published url eventId frame, w.producers⟩ := by
  have hview := WSGIHandler.view_published w.h url eventId frame
  have hslots : ∀ s, (w.h.published url eventId frame).inTable s = w.h.inTable s := by
    intro s
    unfold WSGIHandler.published WSGIHandler.inTable
    dsimp only
    split
    · rfl
    · rfl
  have hsame : ∀ s, w.h.inTable s = true → 0 < (w.h.view s).gen →
      (w.h.published url eventId frame).view s = w.h.view s := by
    intro s hin hpos
    obtain ⟨p, hp, ht⟩ := hw.tenant s hin hpos
    have hname : ∀ socket, ((w.h.view s).row socket).isStreaming = true →
        ((w.h.view s).row socket).filterUrl ≠ url := by
      intro socket hstreaming heq
      by_cases hmine : socket = p.socket
      · rw [hmine] at hstreaming heq
        have hreserved := ht.name hstreaming
        rw [heq, hurl] at hreserved
        cases hreserved
      · have hother : socket = !p.socket := by
          cases socket <;> cases hs : p.socket <;> simp_all
        rw [hother, ht.other] at hstreaming
        cases hstreaming
    rw [hview, WSGIHandler.notifyFrame_of_ne (hname false), WSGIHandler.notifyFrame_of_ne (hname true)]
    rfl
  have hkept : ∀ s, (((w.h.published url eventId frame).view s).gen = (w.h.view s).gen ∧
      ((w.h.published url eventId frame).view s).done = (w.h.view s).done) := by
    intro s
    rw [hview]
    exact ⟨rfl, rfl⟩
  refine ⟨⟨?_, ?_⟩, fun s hin => ?_, fun s hin hpos => ?_, fun s hin hle => ?_, hw.known⟩
  · unfold WSGIHandler.published
    dsimp only
    rw [SSERegistry.capacity_notifyFrame]
    split
    · exact hw.shaped.streams
    · exact hw.shaped.streams
  · unfold WSGIHandler.published
    dsimp only
    rw [SSERegistry.capacity_notifyFrame]
    split
    · exact hw.shaped.sockets
    · exact hw.shaped.sockets
  · rw [hslots] at hin
    have hok := hw.ok s hin
    rw [hview]
    refine ⟨fun hstream => ?_, fun socket hno => ?_⟩
    · rw [WSGIHandler.isStreaming_notifyFrame] at hstream ⊢
      exact hok.one hstream
    · cases socket with
      | false =>
        have hnot : (w.h.streams.slots s).isStreaming = false := by
          rw [← WSGIHandler.isStreaming_notifyFrame w.h.streams url eventId frame s]
          exact hno
        show ((w.h.streams.notifyFrame url eventId frame).1.slots s).pendingBuf = []
        rw [WSGIHandler.notifyFrame_of_ne fun hyes => nomatch hnot.symm.trans hyes]
        exact hok.empty false hnot
      | true =>
        have hnot : (w.h.sockets.slots s).isStreaming = false := by
          rw [← WSGIHandler.isStreaming_notifyFrame w.h.sockets url eventId _ s]
          exact hno
        show ((w.h.sockets.notifyFrame url eventId _).1.slots s).pendingBuf = []
        rw [WSGIHandler.notifyFrame_of_ne fun hyes => nomatch hnot.symm.trans hyes]
        exact hok.empty true hnot
  · rw [hslots] at hin
    rw [(hkept s).1] at hpos
    show ∃ p, w.producers ((w.h.published url eventId frame).view s).gen = some p ∧ _
    rw [hsame s hin hpos]
    exact hw.tenant s hin hpos
  · rw [hslots] at hin
    rw [(hkept s).1] at hle
    rw [(hkept s).2]
    exact hw.held s hin hle

/-! ### One step -/

/-- A frame for a slot of the handler, by its kind. -/
theorem ssePeerFrame_eq {url : Bytes} (hurl : isReserved url = true) (hslot : 0 ≤ parseStreamSlot url)
    (h : WSGIHandler) (id : Int) (payload : Bytes) (counter : Int) :
    h.ssePeerFrame url id payload counter [] =
      match frameKind url with
      | some .begin => h.beginStream (parseStreamSlot url) url id true
      | some .poolBegin => h.beginStream (parseStreamSlot url) url id false
      | some .chunk => h.chunk (parseStreamSlot url) id payload
      | some .finish => h.finish (parseStreamSlot url) id
      | some .hold => h.hold (parseStreamSlot url) payload id counter
      | some .socketHold => h.socketHold (parseStreamSlot url) url payload id counter
      | some .socketBegin => h.beginSocket (parseStreamSlot url) url id
      | some .socketFrame => h.socketFrame (parseStreamSlot url) id payload
      | some .socketFinish => h.socketFinish (parseStreamSlot url) id payload
      | some .consumed => h.consumed (parseStreamSlot url) id payload []
      | none => h := by
  unfold WSGIHandler.ssePeerFrame
  rw [if_pos hurl]
  exact if_neg (by omega)

theorem Sound.frame (hw : w.Sound) {url payload : Bytes} {id counter : Int}
    (hnext : w.next (.frame url id payload counter) = some w') : w'.Sound := by
  unfold next at hnext
  dsimp only at hnext
  split at hnext
  · next hout =>
    cases hnext
    unfold WSGIHandler.ssePeerFrame
    split
    · next hurl =>
      rw [hurl, Bool.not_true, Bool.false_or, decide_eq_true_eq] at hout
      rw [if_pos hout]
      exact hw
    · next hurl => exact hw.published (Bool.eq_false_iff.mpr hurl) id payload
  · next hin =>
    rw [Bool.or_eq_true, not_or, Bool.not_eq_true', Bool.not_eq_false, decide_eq_true_eq] at hin
    have hurl := hin.1
    rw [ssePeerFrame_eq hurl (by omega)] at hnext
    have hpiece : ∀ (socket : Bool) (h' : WSGIHandler),
        WSGIHandler.Acts w.h h' (parseStreamSlot url) (fun v => v.piece socket id payload) →
        w.sends (parseStreamSlot url) socket id
          [(payload, w.verdict (parseStreamSlot url) socket id payload)] false h' = some w' →
        w'.Sound := by
      intro socket h' ha hsends
      refine hw.sends ha (fun p hin' hgen hsocket hrunning hok ht => ?_) (fun hne => ?_)
        (Slot.gen_piece ..) (fun p hp hsocket => ?_) hsends
      · have hverdict : w.verdict (parseStreamSlot url) socket id payload =
            (w.h.view (parseStreamSlot url)).verdict socket id payload := if_pos hin'
        rw [hverdict, ← hsocket]
        exact tenant_piece hok ht hrunning hgen payload
      · exact Slot.piece_of_other socket (by rw [beq_false_of_ne hne, Bool.and_false]) payload
      · rw [← hsocket]
        exact hw.noHoles hp payload
    cases hkind : frameKind url with
    | none =>
      simp only [hkind] at hnext
      cases hnext
      exact hw
    | some kind =>
      simp only [hkind] at hnext
      cases kind with
      | begin => exact hw.begins hurl (WSGIHandler.acts_beginStream hw.shaped _ url id true) hnext
      | poolBegin => exact hw.begins hurl (WSGIHandler.acts_beginStream hw.shaped _ url id false) hnext
      | socketBegin => exact hw.begins hurl (WSGIHandler.acts_beginSocket hw.shaped _ url id) hnext
      | chunk => exact hpiece false _ (WSGIHandler.acts_chunk hw.shaped _ id payload) hnext
      | socketFrame => exact hpiece true _ (WSGIHandler.acts_socketFrame hw.shaped _ id payload) hnext
      | finish =>
        refine hw.sends (WSGIHandler.acts_finish hw.shaped _ id)
          (fun p _ hgen hsocket _ hok ht => ?_) (fun hne => Slot.finish_of_ne hne) (Slot.gen_finish ..)
          (fun p hp _ => ?_) hnext
        · rw [List.append_nil, ← hsocket]
          exact tenant_finish hok ht hgen
        · rw [List.append_nil]
          exact (hw.known id p hp).2.holes
      | socketFinish =>
        refine hw.sends (WSGIHandler.acts_socketFinish hw.shaped _ id payload)
          (fun p hin' hgen hsocket hrunning hok ht => ?_) (fun hne => Slot.socketFinish_of_ne hne payload)
          (Slot.gen_socketFinish ..) (fun p hp hsocket => ?_) hnext
        · have hverdict : w.verdict (parseStreamSlot url) true id payload =
              (w.h.view (parseStreamSlot url)).verdict true id payload := if_pos hin'
          rw [hverdict]
          exact tenant_socketFinish hok ht hrunning hsocket hgen payload
        · split
          · rw [List.append_nil]
            exact (hw.known id p hp).2.holes
          · rw [← hsocket]
            exact hw.noHoles hp payload
      | hold =>
        dsimp only at hnext
        split at hnext
        · next hfree =>
          cases hnext
          obtain ⟨row, hrow, ha⟩ :=
            WSGIHandler.acts_hold hw.shaped (parseStreamSlot url) payload id counter
          exact hw.hold hrow ha hfree
        · cases hnext
      | socketHold =>
        dsimp only at hnext
        split at hnext
        · next hfree =>
          cases hnext
          obtain ⟨row, hrow, ha⟩ :=
            WSGIHandler.acts_socketHold hw.shaped (parseStreamSlot url) url payload id counter
          exact hw.hold hrow ha hfree
        · cases hnext
      | consumed => cases hnext

theorem Sound.step (hw : w.Sound) {l : Label} (hnext : w.next l = some w') : w'.Sound := by
  cases l with
  | frame url id payload counter => exact hw.frame hnext
  | drain slot => exact hw.drain hnext
  | disconnected slot =>
    cases hnext
    exact hw.disconnected slot

/-! ### What ends a subscription -/

/-- The step may end the slot's subscription: it is its stream's own end, or its disconnect, or the drain
behind the end. -/
def MayUnsubscribe (w : World) (slot : Int) : Label → Prop
  | .frame url id _ _ =>
    isReserved url = true ∧ (frameKind url = some .finish ∨ frameKind url = some .socketFinish) ∧
      parseStreamSlot url = slot ∧ w.h.streamGen slot = id
  | .drain s => s = slot ∧ ∃ p, w.tenant slot = some p ∧ p.isOver = true
  | .disconnected s => s = slot

/-- A piece or an end, not of the stream that the slot is subscribed to. -/
def FromAnother (w : World) (url : Bytes) (id : Int) : Prop :=
  isReserved url = true ∧ w.h.streamGen (parseStreamSlot url) ≠ id ∧
    frameKind url ∈ [some .chunk, some .finish, some .socketFrame, some .socketFinish]

/-- A late frame of an earlier stream does nothing. -/
theorem ssePeerFrame_of_another {url : Bytes} {id : Int} (h : FromAnother w url id) (payload : Bytes)
    (counter : Int) : w.h.ssePeerFrame url id payload counter [] = w.h := by
  obtain ⟨hurl, hne, hkind⟩ := h
  have hother : w.h.genMatches (parseStreamSlot url) id = false := by
    unfold WSGIHandler.genMatches
    rw [beq_false_of_ne hne, Bool.and_false]
  unfold WSGIHandler.ssePeerFrame
  rw [if_pos hurl]
  dsimp only
  split
  · rfl
  · simp only [List.mem_cons, List.not_mem_nil, or_false] at hkind
    rcases hkind with hkind | hkind | hkind | hkind
    · rw [hkind]
      dsimp only
      unfold WSGIHandler.chunk
      rw [hother, Bool.and_false, if_neg (by decide)]
    · rw [hkind]
      dsimp only
      unfold WSGIHandler.finish
      rw [hother, Bool.not_false, if_pos rfl]
    · rw [hkind]
      dsimp only
      unfold WSGIHandler.socketFrame
      rw [hother, Bool.and_false, if_neg (by decide)]
    · rw [hkind]
      dsimp only
      unfold WSGIHandler.socketFinish
      rw [hother, Bool.not_false, if_pos rfl]

theorem h_of_frame {url payload : Bytes} {id counter : Int}
    (hnext : w.next (.frame url id payload counter) = some w') :
    w'.h = w.h.ssePeerFrame url id payload counter [] := by
  have hbegins : ∀ {slot gen : Int} {socket : Bool} {h : WSGIHandler},
      w.begins slot socket gen h = some w' → w'.h = h := by
    intro slot gen socket h hb
    unfold begins at hb
    split at hb
    · cases hb
      rfl
    · cases hb
  have hsends : ∀ {slot gen : Int} {socket ends : Bool} {pieces : List (Bytes × Verdict)}
      {h : WSGIHandler}, w.sends slot socket gen pieces ends h = some w' → w'.h = h := by
    intro slot gen socket ends pieces h hs
    unfold sends at hs
    split at hs
    · cases hs
    · split at hs
      · cases hs
        rfl
      · cases hs
  unfold next at hnext
  dsimp only at hnext
  split at hnext
  · cases hnext
    rfl
  · split at hnext
    · exact hbegins hnext
    · exact hbegins hnext
    · exact hbegins hnext
    · exact hsends hnext
    · exact hsends hnext
    · exact hsends hnext
    · exact hsends hnext
    · split at hnext
      · cases hnext
        rfl
      · cases hnext
    · split at hnext
      · cases hnext
        rfl
      · cases hnext
    · cases hnext
    · cases hnext
      rfl

end World

namespace Slot

def streaming (v : Slot) : Bool := v.stream.isStreaming || v.socket.isStreaming

theorem streaming_setRow {row : Subscription} (hrow : row.isStreaming = true) (v : Slot) (socket : Bool) :
    (v.setRow row socket).streaming = true := by
  cases socket with
  | false => exact Bool.or_eq_true_iff.mpr (Or.inl hrow)
  | true => exact Bool.or_eq_true_iff.mpr (Or.inr hrow)

theorem streaming_setRow_same {row : Subscription} {v : Slot} {socket : Bool}
    (hrow : row.isStreaming = (v.row socket).isStreaming) : (v.setRow row socket).streaming = v.streaming := by
  cases socket with
  | false => exact congrArg (· || v.socket.isStreaming) hrow
  | true => exact congrArg (v.stream.isStreaming || ·) hrow

theorem streaming_piece (v : Slot) (socket : Bool) (gen : Int) (frame : Bytes) :
    (v.piece socket gen frame).streaming = v.streaming := by
  unfold piece
  split
  · exact streaming_setRow_same rfl
  · split
    · rfl
    · rfl
  · rfl

theorem streaming_drain {v : Slot} (hdone : v.done = false) : v.drain.1.streaming = v.streaming := by
  rw [drain_eq rfl, hdone, if_neg (by decide)]
  exact streaming_setRow_same rfl

theorem streaming_eq_false {v : Slot} {socket : Bool} (hrow : (v.row socket).isStreaming = false)
    (hother : (v.row (!socket)).isStreaming = false) : v.streaming = false := by
  cases socket with
  | false => exact Bool.or_eq_false_iff.mpr ⟨hrow, hother⟩
  | true => exact Bool.or_eq_false_iff.mpr ⟨hother, hrow⟩

theorem row_of_streaming {v : Slot} (h : v.streaming = false) (socket : Bool) :
    (v.row socket).isStreaming = false := by
  have ⟨hstream, hsocket⟩ := Bool.or_eq_false_iff.mp h
  cases socket with
  | false => exact hstream
  | true => exact hsocket

theorem streaming_begin (v : Slot) (socket : Bool) (url : Bytes) (gen : Int) :
    (v.begin socket url gen).streaming = true := by
  cases socket with
  | false => rfl
  | true => exact Bool.or_true _

end Slot

namespace World

variable {w w' : World}

theorem sseIsStreaming_eq {h : WSGIHandler} (hs : h.Shaped) (slot : Int) :
    h.sseIsStreaming slot = (h.inTable slot && (h.view slot).streaming) := by
  unfold WSGIHandler.sseIsStreaming
  rw [hs.isSlotStreaming_streams, hs.isSlotStreaming_sockets, ← Bool.and_or_distrib_left]
  rfl

/-- What acts on another slot, or leaves this one streaming, ends no subscription. -/
theorem streaming_of_acts {h h' : WSGIHandler} (hs : h.Shaped) {slot s : Int} {f : Slot → Slot}
    (ha : WSGIHandler.Acts h h' slot f) (hbefore : h.sseIsStreaming s = true)
    (hf : s = slot → (h.view slot).streaming = true → (f (h.view slot)).streaming = true) :
    h'.sseIsStreaming s = true := by
  rw [sseIsStreaming_eq hs, Bool.and_eq_true] at hbefore
  rw [sseIsStreaming_eq (hs.acts ha), ha.inTable, hbefore.1, Bool.true_and]
  by_cases heq : s = slot
  · subst heq
    rw [ha.self hbefore.1]
    exact hf rfl hbefore.2
  · rw [ha.other s (Or.inl heq)]
    exact hbefore.2

theorem Sound.streaming_published (hw : w.Sound) (url : Bytes) (eventId : Int) (frame : Bytes) {s : Int}
    (hurl : isReserved url = false) (hbefore : w.h.sseIsStreaming s = true) :
    (w.h.published url eventId frame).sseIsStreaming s = true := by
  have hafter := (hw.published hurl eventId frame).shaped
  have hslots : (w.h.published url eventId frame).inTable s = w.h.inTable s := by
    unfold WSGIHandler.published WSGIHandler.inTable
    dsimp only
    split
    · rfl
    · rfl
  have hrows : ((w.h.published url eventId frame).view s).streaming = (w.h.view s).streaming := by
    rw [WSGIHandler.view_published]
    unfold Slot.streaming
    dsimp only
    rw [WSGIHandler.isStreaming_notifyFrame, WSGIHandler.isStreaming_notifyFrame]
    rfl
  rw [sseIsStreaming_eq hw.shaped] at hbefore
  rw [sseIsStreaming_eq hafter, hslots, hrows]
  exact hbefore

/-- **A subscription ends by its own end, or by its disconnect.** -/
theorem Sound.unsubscribes (hw : w.Sound) {l : Label} (hnext : w.next l = some w') {slot : Int}
    (hbefore : w.h.sseIsStreaming slot = true) (hafter : w'.h.sseIsStreaming slot = false) :
    w.MayUnsubscribe slot l := by
  -- a step that leaves it streaming is none
  have hstill : ∀ {h' : WSGIHandler}, w'.h = h' → h'.sseIsStreaming slot = true →
      w.MayUnsubscribe slot l := by
    intro h' heq hyes
    rw [heq, hyes] at hafter
    cases hafter
  cases l with
  | disconnected s =>
    cases hnext
    by_cases heq : slot = s
    · exact heq.symm
    · exact hstill rfl (streaming_of_acts hw.shaped (WSGIHandler.acts_sseSlotDisconnected hw.shaped s)
        hbefore fun hyes => absurd hyes heq)
  | drain s =>
    have hact := WSGIHandler.acts_sseDrainSlot hw.shaped s
    have hh : w'.h = (w.h.sseDrainSlot s).1 := by
      cases hnext
      rfl
    by_cases heq : slot = s
    · subst heq
      have hin : w.h.inTable slot = true := by
        rw [sseIsStreaming_eq hw.shaped, Bool.and_eq_true] at hbefore
        exact hbefore.1
      cases hdone : (w.h.view slot).done with
      | false =>
        refine hstill hh (streaming_of_acts hw.shaped hact hbefore fun _ hyes => ?_)
        rw [Slot.streaming_drain hdone]
        exact hyes
      | true =>
        refine ⟨rfl, ?_⟩
        by_cases hpos : 0 < (w.h.view slot).gen
        · obtain ⟨p, hp, ht⟩ := hw.tenant slot hin hpos
          refine ⟨p, ?_, ht.done hdone⟩
          unfold World.tenant
          rw [if_pos hin]
          exact hp
        · exact nomatch (hw.held slot hin (by omega)).symm.trans hdone
    · exact hstill hh (streaming_of_acts hw.shaped hact hbefore fun hyes => absurd hyes heq)
  | frame url id payload counter =>
    have hh := h_of_frame hnext
    by_cases hurl : isReserved url = true
    · by_cases hslot : 0 ≤ parseStreamSlot url
      · rw [ssePeerFrame_eq hurl hslot] at hh
        have hkeeps : ∀ {h' : WSGIHandler} {f : Slot → Slot}, w'.h = h' →
            WSGIHandler.Acts w.h h' (parseStreamSlot url) f →
            (slot = parseStreamSlot url → (w.h.view (parseStreamSlot url)).streaming = true →
              (f (w.h.view (parseStreamSlot url))).streaming = true) →
            w.MayUnsubscribe slot (.frame url id payload counter) := fun heq ha hf =>
          hstill heq (streaming_of_acts hw.shaped ha hbefore hf)
        -- an end of another stream's does nothing
        have hends : ∀ {h' : WSGIHandler} {f : Slot → Slot}, w'.h = h' →
            WSGIHandler.Acts w.h h' (parseStreamSlot url) f →
            (frameKind url = some .finish ∨ frameKind url = some .socketFinish) →
            ((w.h.view (parseStreamSlot url)).gen ≠ id →
              f (w.h.view (parseStreamSlot url)) = w.h.view (parseStreamSlot url)) →
            w.MayUnsubscribe slot (.frame url id payload counter) := by
          intro h' f heq ha hkind hf
          by_cases hmine : slot = parseStreamSlot url ∧ (w.h.view slot).gen = id
          · exact ⟨hurl, hkind, hmine.1.symm, hmine.2⟩
          · refine hkeeps heq ha fun hsame hyes => ?_
            rw [hf fun hgen => hmine ⟨hsame, by rw [hsame]; exact hgen⟩]
            exact hyes
        cases hkind : frameKind url with
        | none =>
          rw [hkind] at hh
          exact hstill hh hbefore
        | some kind =>
          rw [hkind] at hh
          cases kind with
          | begin =>
            exact hkeeps hh (WSGIHandler.acts_beginStream hw.shaped _ url id true)
              fun _ _ => Slot.streaming_begin ..
          | poolBegin =>
            exact hkeeps hh (WSGIHandler.acts_beginStream hw.shaped _ url id false)
              fun _ _ => Slot.streaming_begin ..
          | socketBegin =>
            exact hkeeps hh (WSGIHandler.acts_beginSocket hw.shaped _ url id)
              fun _ _ => Slot.streaming_begin ..
          | chunk =>
            refine hkeeps hh (WSGIHandler.acts_chunk hw.shaped _ id payload) fun _ hyes => ?_
            rw [Slot.streaming_piece]
            exact hyes
          | socketFrame =>
            refine hkeeps hh (WSGIHandler.acts_socketFrame hw.shaped _ id payload) fun _ hyes => ?_
            rw [Slot.streaming_piece]
            exact hyes
          | finish =>
            exact hends hh (WSGIHandler.acts_finish hw.shaped _ id) (Or.inl hkind)
              fun hne => Slot.finish_of_ne hne
          | socketFinish =>
            exact hends hh (WSGIHandler.acts_socketFinish hw.shaped _ id payload) (Or.inr hkind)
              fun hne => Slot.socketFinish_of_ne hne payload
          | hold =>
            obtain ⟨row, hrow, ha⟩ :=
              WSGIHandler.acts_hold hw.shaped (parseStreamSlot url) payload id counter
            exact hkeeps hh ha fun _ _ => Slot.streaming_setRow hrow _ false
          | socketHold =>
            obtain ⟨row, hrow, ha⟩ :=
              WSGIHandler.acts_socketHold hw.shaped (parseStreamSlot url) url payload id counter
            exact hkeeps hh ha fun _ _ => Slot.streaming_setRow hrow _ true
          | consumed =>
            -- not a producer's frame
            unfold next at hnext
            dsimp only at hnext
            rw [hurl, Bool.not_true, Bool.false_or, if_neg (by rw [decide_eq_true_eq]; omega), hkind] at hnext
            cases hnext
      · refine hstill hh ?_
        unfold WSGIHandler.ssePeerFrame
        rw [if_pos hurl]
        dsimp only
        rw [if_pos (by omega)]
        exact hbefore
    · refine hstill hh ?_
      unfold WSGIHandler.ssePeerFrame
      rw [if_neg hurl]
      exact hw.streaming_published url id payload (Bool.eq_false_iff.mpr hurl) hbefore

/-! ### What a slot is left as -/

theorem free_eq (hs : w.h.Shaped) (slot : Int) :
    w.free slot = (!w.h.inTable slot || !(w.h.view slot).streaming && !(w.h.view slot).done) := by
  unfold free WSGIHandler.isDone
  rw [sseIsStreaming_eq hs]
  cases w.h.inTable slot with
  | true => rfl
  | false => rfl

theorem Sound.tenant_eq (hw : w.Sound) {slot : Int} {p : Producer} (hp : w.tenant slot = some p) :
    w.h.inTable slot = true ∧ (w.h.view slot).Ok ∧ Tenant slot (w.h.view slot) p := by
  unfold World.tenant at hp
  split at hp
  · next hin =>
    have hpos := (hw.known _ p hp).1
    obtain ⟨q, hq, ht⟩ := hw.tenant slot hin hpos
    have hsame : some q = some p := hq.symm.trans hp
    cases hsame
    exact ⟨hin, hw.ok slot hin, ht⟩
  · cases hp

/-- A slot whose stream was ended is free behind its drain. -/
theorem Sound.free_drain (hw : w.Sound) {slot : Int} {p : Producer} (hp : w.tenant slot = some p)
    (hended : p.ended = true) (hnext : w.next (.drain slot) = some w') : w'.free slot = true := by
  have ⟨hin, hok, ht⟩ := hw.tenant_eq hp
  have hact := WSGIHandler.acts_sseDrainSlot hw.shaped slot
  have hh : w'.h = (w.h.sseDrainSlot slot).1 := by
    cases hnext
    rfl
  have hview : w'.h.view slot = (w.h.view slot).drain.1 := by rw [hh, hact.self hin]
  rw [free_eq (hw.step hnext).shaped, hview, Slot.done_drain]
  have hnot : (w.h.view slot).drain.1.streaming = false := by
    cases hdone : (w.h.view slot).done with
    | false =>
      rw [Slot.streaming_drain hdone]
      have hrow : ((w.h.view slot).row p.socket).isStreaming = false := by
        cases hyes : ((w.h.view slot).row p.socket).isStreaming with
        | false => rfl
        | true => exact nomatch (ht.ended hended hyes).symm.trans hdone
      exact Slot.streaming_eq_false hrow ht.other
    | true =>
      rw [Slot.drain_eq rfl, hdone, if_pos rfl]
      cases hsocket : (w.h.view slot).socket.isStreaming with
      | false => exact hsocket
      | true =>
        have hother := hok.row_not true hsocket
        show ((w.h.view slot).stream.isStreaming || false) = false
        rw [Bool.or_false]
        exact hother
  rw [hnot]
  exact Bool.or_true _

theorem Sound.free_disconnected (hw : w.Sound) {slot : Int}
    (hnext : w.next (.disconnected slot) = some w') : w'.free slot = true := by
  have hact := WSGIHandler.acts_sseSlotDisconnected hw.shaped slot
  rw [free_eq (hw.step hnext).shaped]
  cases hnext
  show (!(w.h.sseSlotDisconnected slot).inTable slot || _) = true
  rw [hact.inTable]
  cases hin : w.h.inTable slot with
  | false => rfl
  | true =>
    show (false || !((w.h.sseSlotDisconnected slot).view slot).streaming &&
      !((w.h.sseSlotDisconnected slot).view slot).done) = true
    rw [hact.self hin]
    rfl

/-! ## Every run -/

/-- What every stream has been handed out, at some instant. -/
structure Apart (w : World) : Prop where
  /-- Its own pieces only, in order, -/
  own : ∀ gen p, w.producers gen = some p → p.handed <+: takenBytes p.pieces
  /-- none left out before one handed out, but for those its outbox refused. -/
  holes : ∀ gen p, w.producers gen = some p → NoHoles p.pieces
  whole : ∀ gen p, w.producers gen = some p → p.refused = false → p.handed <+: pieceBytes p.pieces
  /-- All of them, when its slot is no longer subscribed and not yet another's. -/
  all : ∀ slot p, w.tenant slot = some p → p.refused = false → w.h.sseIsStreaming slot = false →
    p.handed = pieceBytes p.pieces

theorem Sound.apart (hw : w.Sound) : w.Apart := by
  have hwhole : ∀ gen p, w.producers gen = some p → p.refused = false →
      p.handed <+: pieceBytes p.pieces := by
    intro gen p hp hnone
    have hok := (hw.known gen p hp).2
    refine hok.own.trans (takenBytes_isPrefix hok.holes fun piece hmem hrefused => ?_)
    have hsome : p.refused = true := List.any_eq_true.mpr ⟨piece, hmem, beq_iff_eq.mpr hrefused⟩
    exact nomatch hnone.symm.trans hsome
  refine ⟨fun gen p hp => (hw.known gen p hp).2.own, fun gen p hp => (hw.known gen p hp).2.holes, hwhole,
    fun slot p hp hnone hnot => ?_⟩
  have ⟨hin, hok, ht⟩ := hw.tenant_eq hp
  have hidle : (w.h.view slot).streaming = false := by
    rw [sseIsStreaming_eq hw.shaped, hin, Bool.true_and] at hnot
    exact hnot
  have hempty : ((w.h.view slot).row p.socket).pendingBuf = [] :=
    hok.empty p.socket (Slot.row_of_streaming hidle p.socket)
  have haccount := ht.account
  rw [hempty, List.append_nil] at haccount
  rw [haccount]
  apply takenBytes_all
  intro piece hmem
  cases hverdict : piece.2 with
  | queued => rfl
  | refused =>
    have hsome : p.refused = true := List.any_eq_true.mpr ⟨piece, hmem, beq_iff_eq.mpr hverdict⟩
    exact nomatch hnone.symm.trans hsome
  | dropped => exact absurd hverdict (ht.kept hnone piece hmem)

/-- No stream of the run has another's bytes, or ends by another's frames. -/
structure Isolated {w : World} (x : (system w).Execution) : Prop where
  apart : ∀ k ≤ x.labels.length, (x.state k).Apart
  unsubscribed : ∀ k l slot, x.labels[k]? = some l → (x.state k).h.sseIsStreaming slot = true →
    (x.state (k + 1)).h.sseIsStreaming slot = false → (x.state k).MayUnsubscribe slot l
  late : ∀ k url id payload counter, x.labels[k]? = some (.frame url id payload counter) →
    (x.state k).FromAnother url id → (x.state (k + 1)).h = (x.state k).h
  /-- A slot is free for the next stream once its last was ended and drained, or disconnected. -/
  freed : ∀ k slot, (x.labels[k]? = some (.drain slot) ∧
      (∃ p, (x.state k).tenant slot = some p ∧ p.ended = true)) ∨
    x.labels[k]? = some (.disconnected slot) → (x.state (k + 1)).free slot = true

/-- **A producer's bytes never reach another stream.** -/
theorem isolated (slots : Nat) (replayFrames : Int) (sharedId asgiNotify abortPool : Bool)
    (poolFd : Int → Bool)
    (x : (system (initial slots replayFrames sharedId asgiNotify abortPool poolFd)).Execution) :
    Isolated x := by
  have hsound : ∀ k ≤ x.labels.length, (x.state k).Sound :=
    x.invariant (sound_initial slots replayFrames sharedId asgiNotify abortPool poolFd)
      fun _ _ _ hw hnext => hw.step hnext
  have hbefore : ∀ {k l}, x.labels[k]? = some l → (x.state k).Sound := fun hl =>
    hsound _ (Nat.le_of_lt (x.lt_length hl))
  refine ⟨fun k hk => (hsound k hk).apart, fun k l slot hl => ?_, fun k url id payload counter hl => ?_,
    fun k slot hfree => ?_⟩
  · exact (hbefore hl).unsubscribes (x.steps hl)
  · intro hanother
    rw [h_of_frame (x.steps hl)]
    exact ssePeerFrame_of_another hanother payload counter
  · rcases hfree with ⟨hl, p, hp, hended⟩ | hl
    · exact (hbefore hl).free_drain hp hended (x.steps hl)
    · exact (hbefore hl).free_disconnected (x.steps hl)

/-! ## A piece too long for its outbox -/

/-- One slot, and nothing on it. -/
def vacant : World := initial 1 0 false false false fun _ => false

/-- A stream on slot 0. -/
def begun : World :=
  ⟨vacant.h.beginStream 0 (reservedStreamUrl 0x62 0 0) 7 true,
    Function.update vacant.producers 7 (some ⟨0, false, false, [], []⟩)⟩

/-- Behind a piece that its outbox refused. -/
def behindRefusal (big : Bytes) : World :=
  ⟨{ begun.h with streamLost := Function.update begun.h.streamLost 0 true },
    Function.update begun.producers 7 (some ⟨0, false, false, [(big, .refused)], []⟩)⟩

def refusal (big : Bytes) : List Label :=
  [.frame (reservedStreamUrl 0x62 0 0) 7 [] 0, .frame (reservedStreamUrl 0x73 0 0) 7 big 0,
    .frame (reservedStreamUrl 0x73 0 0) 7 [0x79] 0, .drain 0]

theorem next_begun : vacant.next (.frame (reservedStreamUrl 0x62 0 0) 7 [] 0) = some begun := rfl

theorem next_refused {big : Bytes} (hbig : MAX_PENDING_BYTES < big.length) :
    begun.next (.frame (reservedStreamUrl 0x73 0 0) 7 big 0) = some (behindRefusal big) := by
  have hroom : (begun.h.streams.slots 0).takes NO_EVENT_ID big = false := by
    have hlong : ¬ (0 : Nat) + big.length ≤ MAX_PENDING_BYTES := by omega
    exact decide_eq_false hlong
  have hchunk : begun.h.chunk 0 7 big = (behindRefusal big).h := by
    unfold WSGIHandler.chunk
    rw [if_pos (by decide), SSERegistry.queueFrame_eq, hroom, Bool.and_false]
    rfl
  have hverdict : begun.verdict 0 false 7 big = .refused := by
    show (if (begun.h.streams.slots 0).takes NO_EVENT_ID big = true then Verdict.queued
      else Verdict.refused) = _
    rw [hroom, if_neg (by decide)]
  show begun.sends 0 false 7 [(big, begun.verdict 0 false 7 big)] false (begun.h.chunk 0 7 big) = _
  rw [hchunk, hverdict]
  rfl

/-- What follows is taken, and handed out. -/
theorem run_refusal {big : Bytes} (hbig : MAX_PENDING_BYTES < big.length) :
    ∃ w : World, (system vacant).run vacant (refusal big) = some w ∧
      w.producers 7 = some ⟨0, false, false, [(big, .refused), ([0x79], .queued)], [0x79]⟩ := by
  have hbegin : (system vacant).next vacant (.frame (reservedStreamUrl 0x62 0 0) 7 [] 0) = some begun :=
    next_begun
  have hrefused : (system vacant).next begun (.frame (reservedStreamUrl 0x73 0 0) 7 big 0) =
      some (behindRefusal big) := next_refused hbig
  have hsteps : (system vacant).run vacant (refusal big) =
      (system vacant).run (behindRefusal big)
        [.frame (reservedStreamUrl 0x73 0 0) 7 [0x79] 0, .drain 0] := by
    unfold refusal
    rw [LabelledSystem.run, hbegin, Option.bind_some, LabelledSystem.run, hrefused, Option.bind_some]
  refine ⟨⟨(((behindRefusal big).h.chunk 0 7 [0x79]).sseDrainSlot 0).1,
    Function.update (Function.update (behindRefusal big).producers 7
      (some ⟨0, false, false, [(big, .refused), ([0x79], .queued)], []⟩)) 7
        (some ⟨0, false, false, [(big, .refused), ([0x79], .queued)], [0x79]⟩)⟩, ?_, rfl⟩
  rw [hsteps]
  rfl

/-- The bytes of a stream are a prefix of its pieces. -/
def OwnPrefix (w : World) : Prop :=
  ∀ (x : (system w).Execution) (k : Nat) (gen : Int) (p : Producer), k ≤ x.labels.length →
    (x.state k).producers gen = some p → p.handed <+: pieceBytes p.pieces

theorem not_ownPrefix_vacant {first : UInt8} {rest : Bytes}
    (hbig : MAX_PENDING_BYTES < (first :: rest).length) (hfirst : 0x79 ≠ first) : ¬ OwnPrefix vacant := by
  intro h
  obtain ⟨w, hrun, hp⟩ := run_refusal hbig
  have hsome : ((system vacant).run vacant (refusal (first :: rest))).isSome = true := by
    rw [hrun]
    rfl
  have hlast : (LabelledSystem.Execution.ofRun (system vacant) (refusal (first :: rest)) hsome).state 4 =
      w := by
    show ((system vacant).run vacant (refusal (first :: rest))).getD vacant = w
    rw [hrun]
    rfl
  have hend := h (.ofRun (system vacant) (refusal (first :: rest)) hsome) 4 7 _ (Nat.le_refl _)
    (by rw [hlast]; exact hp)
  have hpre : [0x79] <+: first :: (rest ++ [0x79]) := hend
  rw [List.cons_prefix_cons] at hpre
  exact hfirst hpre.1

/-- Behind a first piece of 65,537 bytes the rest of the stream is handed out without it. -/
theorem not_ownPrefix :
    ¬ ∀ (slots : Nat) (replayFrames : Int) (sharedId asgiNotify abortPool : Bool) (poolFd : Int → Bool),
      OwnPrefix (initial slots replayFrames sharedId asgiNotify abortPool poolFd) := by
  intro h
  have hbig : MAX_PENDING_BYTES < (0x78 :: List.replicate 65536 (0x78 : UInt8)).length := by
    rw [List.length_cons, List.length_replicate]
    decide
  exact not_ownPrefix_vacant hbig (by decide) (h 1 0 false false false fun _ => false)

end World

end MojoHttp
