import MojoHttp.Sse.Readiness

/-!
# A feed (`feed.mojo`)

A stream whose ids are the application's: each subscriber stands at a number of its own and is brought to
the head by deltas that go in whole or not at all.

* **`Feed.SlotOk.step`** — what a feed keeps for one slot, a refusal by the bytes it was refused at.
* **`Feed.serves_in_order`** — what a subscriber is handed, where it stands, and who `behind` names.
-/

namespace MojoHttp

/-- Bytes a subscriber may hold unsent beside a new delta. -/
def FEED_SLOT_BUDGET : Nat := 65536

/-- `_parse_stamp`: decimal digits, without a sign or a leading zero; -1 for anything else. -/
def parseStamp (b : Bytes) : Int :=
  if b.length == 0 || b.length > 18 then -1
  else if b.length > 1 && b.head? == some 0x30 then -1
  else
    b.foldl (fun v c => if v < 0 || c < 0x30 || c > 0x39 then -1 else v * 10 + (c.toNat - 48 : Int)) 0

/-- `since_of`: the `Last-Event-ID`, else `?since=`, else 0. -/
def sinceOf (lastEventId since : Option Bytes) : Int :=
  match lastEventId with
  | some lei => parseStamp lei
  | none =>
    match since with
    | some since => parseStamp since
    | none => 0

/-- What a refused open answers. -/
structure Problem where
  status : Nat
  title : Bytes
  detail : Bytes
  deriving Repr, DecidableEq

structure Feed where
  registry : SSERegistry
  sent : Nat
  refused : Nat
  lagging : Bool
  /-- By slot: how many bytes it held when a delta was last refused, or -1. -/
  refusedAt : Int → Int

namespace Feed

/-- `Feed(capacity)`. -/
def new (capacity : Nat) : Feed := ⟨SSERegistry.new capacity, 0, 0, false, fun _ => -1⟩

/-- `open`: the stream opened, or the problem answered. A slot past the capacity ends the process. -/
def «open» (f : Feed) (slotId : Int) (lastEventId since : Option Bytes) (key : Bytes) :
    Option (Feed × Option Problem) :=
  if slotId < 0 then some (f, some ⟨409, ascii "Conflict", ascii "a stream opens on the loop"⟩)
  else
    let stamp := sinceOf lastEventId since
    if stamp < 0 then
      some (f, some ⟨400, ascii "Invalid Stamp", ascii "since is a number: decimal digits"⟩)
    else if !f.registry.inRange slotId then none
    else
      -- a slot whose last stream never reached the loop may still hold bytes
      let r := f.registry.setSlot slotId { f.registry.slots slotId with pendingBuf := [] }
      some ({ f with
        registry := r.subscribe slotId key stamp
        refusedAt := Function.update f.refusedAt slotId (-1)
        lagging := true }, none)

/-- One turn of the loop of `behind`: whether the slot is left out, and whether it is named. -/
def behindSlot (f : Feed) (head : Int) (acc : Bool × List Int) (slot : Int) : Bool × List Int :=
  let sub := f.registry.slots slot
  if !sub.isStreaming || sub.lastEventId == head then acc
  else if f.refusedAt slot ≥ 0 && (sub.pendingBuf.length : Int) == f.refusedAt slot then (true, acc.2)
  else (acc.1, acc.2 ++ [slot])

/-- `behind`. -/
def behind (f : Feed) (head : Int) : Feed × List Int :=
  let out := (slotRange f.registry.capacity).foldl (f.behindSlot head) (false, [])
  ({ f with lagging := out.1 }, out.2)

/-- `at`. -/
def «at» (f : Feed) (slot : Int) : Int :=
  if f.registry.inRange slot then (f.registry.slots slot).lastEventId else 0

/-- `key`. -/
def key (f : Feed) (slot : Int) : Bytes :=
  if f.registry.inRange slot then (f.registry.slots slot).filterUrl else []

/-- `send`: a delta, whole, and the subscriber moved to `head`; or refused. -/
def send (f : Feed) (slot head : Int) (frames : Bytes) : Feed × Bool :=
  if !f.registry.isSlotStreaming slot then (f, false)
  else
    let pending := (f.registry.slots slot).pendingBuf.length
    if pending > 0 && pending + frames.length > FEED_SLOT_BUDGET then
      ({ f with
        refused := f.refused + 1
        refusedAt := Function.update f.refusedAt slot pending
        lagging := true }, false)
    else
      let sub := f.registry.slots slot
      let r := f.registry.setSlot slot { sub with pendingBuf := sub.pendingBuf ++ frames }
      let r := r.markReady slot
      ({ f with
        registry := r.setSlot slot { r.slots slot with lastEventId := head }
        refusedAt := Function.update f.refusedAt slot (-1)
        sent := f.sent + 1 }, true)

/-- `skip`. -/
def skip (f : Feed) (slot head : Int) : Feed :=
  if !f.registry.inRange slot then f
  else { f with registry := f.registry.setSlot slot { f.registry.slots slot with lastEventId := head } }

/-- `drain`. -/
def drain (f : Feed) (slot : Int) : Feed × Bytes :=
  let out := f.registry.drain slot
  ({ f with registry := out.1 }, out.2)

/-- `take_ready`. -/
def takeReady (f : Feed) : Feed × List Int :=
  let out := f.registry.takeReady
  ({ f with registry := out.1 }, out.2)

/-- `closed`. -/
def closed (f : Feed) (slot : Int) : Feed :=
  let f := if f.registry.inRange slot then { f with refusedAt := Function.update f.refusedAt slot (-1) } else f
  { f with registry := f.registry.unsubscribe slot }

/-! ## A run, and what the claim of it speaks of -/

inductive Step where
  | opened (slotId : Int) (lastEventId since : Option Bytes) (key : Bytes)
  | behind (head : Int)
  | send (slot head : Int) (frames : Bytes)
  | skip (slot head : Int)
  | drain (slot : Int)
  | closed (slot : Int)
  | takeReady
  deriving Repr, DecidableEq

/-- What has become of one slot since its open. -/
structure Past where
  handed : Bytes
  /-- The frames that `send` accepted. -/
  accepted : List Bytes
  /-- The head of the last accepted send or skip, or the number it opened at. -/
  stands : Int
  /-- A send was refused since the last drain. -/
  refused : Bool
  /-- And one accepted since. -/
  taken : Bool

structure Served where
  feed : Feed
  past : Int → Past
  /-- Since the last `behind` a slot was left out or a send refused. -/
  owing : Bool

/-- The slots that `behind` leaves out. -/
def Served.leavesOut (w : Served) (head slot : Int) : Bool :=
  w.feed.registry.isSlotStreaming slot && (w.past slot).stands != head &&
    ((w.past slot).refused && !(w.past slot).taken)

/-- A step, and what it adds to the past of its slot. -/
def Served.step (w : Served) : Step → Option Served
  | .opened slotId lastEventId since key =>
    (w.feed.open slotId lastEventId since key).map fun out =>
      { w with
        feed := out.1
        past := if out.2.isSome then w.past
          else Function.update w.past slotId ⟨[], [], sinceOf lastEventId since, false, false⟩ }
  | .behind head =>
    some { w with
      feed := (w.feed.behind head).1
      owing := (slotRange w.feed.registry.capacity).any (w.leavesOut head) }
  | .send slot head frames =>
    let past := w.past slot
    some { w with
      feed := (w.feed.send slot head frames).1
      past := if !w.feed.registry.isSlotStreaming slot then w.past
        else if (w.feed.send slot head frames).2 then
          Function.update w.past slot
            { past with accepted := past.accepted ++ [frames], stands := head, taken := past.refused }
        else Function.update w.past slot { past with refused := true, taken := false }
      owing := w.owing || w.feed.registry.isSlotStreaming slot && !(w.feed.send slot head frames).2 }
  | .skip slot head =>
    some { w with
      feed := w.feed.skip slot head
      past := Function.update w.past slot { w.past slot with stands := head } }
  | .drain slot =>
    some { w with
      feed := (w.feed.drain slot).1
      past := Function.update w.past slot
        { w.past slot with handed := (w.past slot).handed ++ (w.feed.drain slot).2, refused := false, taken := false } }
  | .closed slot =>
    some { w with
      feed := w.feed.closed slot
      past := Function.update w.past slot { w.past slot with refused := false, taken := false } }
  | .takeReady => some { w with feed := w.feed.takeReady.1 }

def system (capacity : Nat) : LabelledSystem Served Step :=
  ⟨⟨new capacity, fun _ => ⟨[], [], 0, false, false⟩, false⟩, Served.step⟩

/-! ## One slot -/

/-- What a feed has for a slot, and what has become of it. -/
structure RowOk (streams : Bool) (row : Subscription) (refusedAt : Int) (past : Past) : Prop where
  line : streams = true → past.handed ++ row.pendingBuf = past.accepted.flatten
  idle : streams = false → row.pendingBuf = []
  handed : past.handed <+: past.accepted.flatten
  stands : streams = true → row.lastEventId = past.stands
  /-- It holds what it held when it was refused exactly if nothing has been drained or accepted since. -/
  stuck : 0 ≤ refusedAt ∧ (row.pendingBuf.length : Int) = refusedAt ↔ past.refused = true ∧ past.taken = false
  /-- A slot with nothing pending is not refused. -/
  mark : refusedAt = -1 ∨ 0 < refusedAt

/-- Where nothing is pending, no refusal is in force. -/
theorem stuck_of_empty {row : Subscription} {refusedAt : Int} (hempty : row.pendingBuf = [])
    (hmark : refusedAt = -1 ∨ 0 < refusedAt) :
    ¬ (0 ≤ refusedAt ∧ (row.pendingBuf.length : Int) = refusedAt) := by
  rw [hempty, List.length_nil]
  omega

theorem rowOk_opened (url : Bytes) (stamp : Int) :
    RowOk true ⟨true, url, stamp, []⟩ (-1) ⟨[], [], stamp, false, false⟩ := by
  refine ⟨fun _ => rfl, fun h => (nomatch h), List.nil_prefix, fun _ => rfl, ?_, Or.inl rfl⟩
  exact iff_of_false (fun h => absurd h.1 (by decide)) (fun h => (nomatch h.1))

variable {streams : Bool} {row : Subscription} {refusedAt : Int} {past : Past}

theorem RowOk.accepted (h : RowOk true row refusedAt past) (frames : Bytes) (head : Int) :
    RowOk true { row with pendingBuf := row.pendingBuf ++ frames, lastEventId := head } (-1)
      { past with accepted := past.accepted ++ [frames], stands := head, taken := past.refused } := by
  have hline : past.handed ++ (row.pendingBuf ++ frames) = (past.accepted ++ [frames]).flatten := by
    rw [← List.append_assoc, h.line rfl, List.flatten_append, List.flatten_singleton]
  refine ⟨fun _ => hline, fun h => (nomatch h), ⟨_, hline⟩, fun _ => rfl, ?_, Or.inl rfl⟩
  refine iff_of_false (fun h => absurd h.1 (by decide)) fun h => ?_
  -- the refusal before it is over
  rw [h.1] at h
  cases h.2

theorem RowOk.refused (h : RowOk true row refusedAt past) (hpending : 0 < row.pendingBuf.length) :
    RowOk true row row.pendingBuf.length { past with refused := true, taken := false } := by
  refine ⟨h.line, h.idle, h.handed, h.stands, ?_, Or.inr (Int.natCast_pos.mpr hpending)⟩
  exact iff_of_true ⟨Int.natCast_nonneg _, rfl⟩ ⟨rfl, rfl⟩

theorem RowOk.skipped (h : RowOk streams row refusedAt past) (head : Int) :
    RowOk streams { row with lastEventId := head } refusedAt { past with stands := head } :=
  ⟨h.line, h.idle, h.handed, fun _ => rfl, h.stuck, h.mark⟩

theorem RowOk.drained (h : RowOk streams row refusedAt past) :
    RowOk streams { row with pendingBuf := [] } refusedAt
      { past with handed := past.handed ++ row.pendingBuf, refused := false, taken := false } := by
  have hhanded : past.handed ++ row.pendingBuf <+: past.accepted.flatten := by
    cases hstreams : streams with
    | true => rw [h.line hstreams]
    | false =>
      rw [h.idle hstreams, List.append_nil]
      exact h.handed
  refine ⟨fun hstreams => ?_, fun _ => rfl, hhanded, h.stands, ?_, h.mark⟩
  · rw [List.append_nil]
    exact h.line hstreams
  · exact iff_of_false (stuck_of_empty rfl h.mark) fun h => (nomatch h.1)

theorem RowOk.closed (h : RowOk streams row refusedAt past) :
    RowOk false {} (-1) { past with refused := false, taken := false } := by
  refine ⟨fun h => (nomatch h), fun _ => rfl, h.handed, fun h => (nomatch h), ?_, Or.inl rfl⟩
  exact iff_of_false (fun h => absurd h.1 (by decide)) fun h => (nomatch h.1)

theorem RowOk.forgotten (h : RowOk false row refusedAt past) :
    RowOk false row refusedAt { past with refused := false, taken := false } := by
  refine ⟨fun h => (nomatch h), h.idle, h.handed, fun h => (nomatch h), ?_, h.mark⟩
  exact iff_of_false (stuck_of_empty (h.idle rfl) h.mark) fun h => (nomatch h.1)

/-- What a feed keeps for slot `s`. -/
def Served.SlotOk (w : Served) (s : Int) : Prop :=
  RowOk (w.feed.registry.isSlotStreaming s) (w.feed.registry.slots s) (w.feed.refusedAt s) (w.past s)

/-- A step that is not about the slot. -/
theorem Served.SlotOk.same {w w' : Served} {s : Int} (h : w.SlotOk s)
    (hrange : w'.feed.registry.inRange s = w.feed.registry.inRange s)
    (hrow : w'.feed.registry.slots s = w.feed.registry.slots s)
    (hmark : w'.feed.refusedAt s = w.feed.refusedAt s) (hpast : w'.past s = w.past s) : w'.SlotOk s := by
  unfold Served.SlotOk SSERegistry.isSlotStreaming at h ⊢
  rw [hrange, hrow, hmark, hpast]
  exact h

theorem streaming_of {r : SSERegistry} {s : Int} (hstreams : r.isSlotStreaming s = true) :
    r.inRange s = true ∧ (r.slots s).isStreaming = true := SSERegistry.isSlotStreaming_iff.mp hstreams

/-! ## Every step -/

/-- What each call leaves of the rows. -/
theorem slots_send {f : Feed} {slot head : Int} {frames : Bytes} (hsent : (f.send slot head frames).2 = true)
    (s : Int) : (f.send slot head frames).1.registry.slots s =
        (if s = slot then
          { f.registry.slots slot with
            pendingBuf := (f.registry.slots slot).pendingBuf ++ frames, lastEventId := head }
        else f.registry.slots s) ∧
      (f.send slot head frames).1.registry.capacity = f.registry.capacity ∧
        (f.send slot head frames).1.refusedAt = Function.update f.refusedAt slot (-1) := by
  unfold send at hsent ⊢
  split at hsent
  · cases hsent
  · next hstreams =>
    rw [if_neg hstreams]
    dsimp only at hsent ⊢
    split at hsent
    · cases hsent
    · next hfits =>
      rw [if_neg hfits]
      refine ⟨?_, ?_, rfl⟩
      · rcases Decidable.em (s = slot) with rfl | hne
        · rw [if_pos rfl, SSERegistry.slots_setSlot_self, SSERegistry.slots_markReady,
            SSERegistry.slots_setSlot_self]
        · rw [if_neg hne, SSERegistry.slots_setSlot_of_ne _ hne, SSERegistry.slots_markReady,
            SSERegistry.slots_setSlot_of_ne _ hne]
      · rw [SSERegistry.capacity_setSlot, SSERegistry.capacity_markReady, SSERegistry.capacity_setSlot]

/-- A refusal leaves the rows alone. -/
theorem send_refused {f : Feed} {slot head : Int} {frames : Bytes}
    (hstreams : f.registry.isSlotStreaming slot = true) (hrefused : (f.send slot head frames).2 = false) :
    0 < (f.registry.slots slot).pendingBuf.length ∧ (f.send slot head frames).1.registry = f.registry ∧
      (f.send slot head frames).1.refusedAt =
        Function.update f.refusedAt slot (f.registry.slots slot).pendingBuf.length ∧
      (f.send slot head frames).1.lagging = true := by
  unfold send at hrefused ⊢
  rw [if_neg (by rw [hstreams]; decide)] at hrefused ⊢
  dsimp only at hrefused ⊢
  split at hrefused
  · next hfull =>
    rw [if_pos hfull]
    rw [Bool.and_eq_true, decide_eq_true_eq] at hfull
    exact ⟨hfull.1, rfl, rfl, rfl⟩
  · cases hrefused

/-- A send to a slot that is not streaming does nothing. -/
theorem send_idle {f : Feed} {slot head : Int} {frames : Bytes}
    (hidle : f.registry.isSlotStreaming slot = false) : f.send slot head frames = (f, false) := by
  unfold send
  rw [hidle]
  rfl

/-- An open: refused, or the slot's row and mark new. -/
theorem open_cases {f : Feed} {slotId : Int} {lastEventId since : Option Bytes} {key : Bytes}
    {out : Feed × Option Problem} (hout : f.open slotId lastEventId since key = some out) :
    (out.1 = f ∧ out.2.isSome = true) ∨
      (out.2 = none ∧ f.registry.inRange slotId = true ∧ out.1.registry.capacity = f.registry.capacity ∧
        (∀ s, out.1.registry.slots s =
          if s = slotId then ⟨true, key, sinceOf lastEventId since, []⟩ else f.registry.slots s) ∧
        out.1.refusedAt = Function.update f.refusedAt slotId (-1) ∧ out.1.lagging = true) := by
  unfold Feed.open at hout
  split at hout
  · rw [← Option.some.inj hout]
    exact Or.inl ⟨rfl, rfl⟩
  · dsimp only at hout
    split at hout
    · rw [← Option.some.inj hout]
      exact Or.inl ⟨rfl, rfl⟩
    · split at hout
      · cases hout
      · next hin =>
        rw [Bool.not_eq_true', Bool.not_eq_false] at hin
        rw [← Option.some.inj hout]
        refine Or.inr ⟨rfl, hin, ?_, fun s => ?_, rfl, rfl⟩
        · rw [SSERegistry.capacity_subscribe, SSERegistry.capacity_setSlot]
        · dsimp only
          rw [SSERegistry.slots_subscribe]
          have hin' : (f.registry.setSlot slotId { f.registry.slots slotId with pendingBuf := [] }).inRange
              slotId = true := hin
          rw [hin', Bool.true_and]
          rcases Decidable.em (s = slotId) with rfl | hne
          · rw [beq_self_eq_true, if_pos rfl, if_pos rfl, SSERegistry.slots_setSlot_self]
          · rw [beq_false_of_ne hne, if_neg Bool.false_ne_true, if_neg hne,
              SSERegistry.slots_setSlot_of_ne _ hne]

theorem inRange_of_capacity {r r' : SSERegistry} (hcap : r'.capacity = r.capacity) (s : Int) :
    r'.inRange s = r.inRange s := by
  unfold SSERegistry.inRange
  rw [hcap]

theorem isSlotStreaming_of {r r' : SSERegistry} {s : Int} (hcap : r'.capacity = r.capacity)
    (hsame : (r'.slots s).isStreaming = (r.slots s).isStreaming) : r'.isSlotStreaming s = r.isSlotStreaming s := by
  unfold SSERegistry.isSlotStreaming
  rw [inRange_of_capacity hcap, hsame]

/-- A send: accepted, refused, or to a slot that is not streaming. -/
theorem Served.SlotOk.sent {w : Served} {s : Int} (hw : w.SlotOk s) (slot head : Int) (frames : Bytes) :
    Served.SlotOk { w with
      feed := (w.feed.send slot head frames).1
      past := if !w.feed.registry.isSlotStreaming slot then w.past
        else if (w.feed.send slot head frames).2 then
          Function.update w.past slot { w.past slot with
            accepted := (w.past slot).accepted ++ [frames], stands := head, taken := (w.past slot).refused }
        else Function.update w.past slot { w.past slot with refused := true, taken := false }
      owing := w.owing || w.feed.registry.isSlotStreaming slot && !(w.feed.send slot head frames).2 } s := by
  cases hstreams : w.feed.registry.isSlotStreaming slot with
  | false =>
    rw [send_idle hstreams]
    exact hw.same rfl rfl rfl rfl
  | true =>
    rw [Bool.not_true, if_neg Bool.false_ne_true]
    cases hsent : (w.feed.send slot head frames).2 with
    | true =>
      obtain ⟨hrow, hcap, hmarks⟩ := slots_send hsent s
      rcases Decidable.em (s = slot) with rfl | hne
      · rw [if_pos rfl] at hrow
        have hstill := isSlotStreaming_of (s := s) hcap (by rw [hrow])
        unfold Served.SlotOk at hw ⊢
        dsimp only
        rw [hstreams] at hw
        rw [hstill, hstreams, hrow, hmarks, Function.update_self, if_pos rfl, Function.update_self]
        exact hw.accepted frames head
      · rw [if_neg hne] at hrow
        refine hw.same (inRange_of_capacity hcap s) hrow ?_ ?_
        · show (w.feed.send slot head frames).1.refusedAt s = _
          rw [hmarks, Function.update_of_ne hne]
        · dsimp only
          rw [if_pos rfl, Function.update_of_ne hne]
    | false =>
      obtain ⟨hpending, hregistry, hmarks, -⟩ := send_refused hstreams hsent
      rcases Decidable.em (s = slot) with rfl | hne
      · unfold Served.SlotOk at hw ⊢
        dsimp only
        rw [hstreams] at hw
        rw [hregistry, hstreams, hmarks, Function.update_self, if_neg Bool.false_ne_true, Function.update_self]
        exact hw.refused hpending
      · refine hw.same ?_ ?_ ?_ ?_
        · show (w.feed.send slot head frames).1.registry.inRange s = _
          rw [hregistry]
        · show (w.feed.send slot head frames).1.registry.slots s = _
          rw [hregistry]
        · show (w.feed.send slot head frames).1.refusedAt s = _
          rw [hmarks, Function.update_of_ne hne]
        · dsimp only
          rw [if_neg Bool.false_ne_true, Function.update_of_ne hne]

theorem Served.SlotOk.skipped {w : Served} {s : Int} (hw : w.SlotOk s) (slot head : Int) :
    Served.SlotOk { w with
      feed := w.feed.skip slot head
      past := Function.update w.past slot { w.past slot with stands := head } } s := by
  unfold skip
  rcases Decidable.em (s = slot) with rfl | hne
  · cases hin : w.feed.registry.inRange s with
    | false =>
      -- a slot the feed does not have
      have hidle : w.feed.registry.isSlotStreaming s = false := by
        unfold SSERegistry.isSlotStreaming
        rw [hin]
        rfl
      unfold Served.SlotOk at hw ⊢
      dsimp only
      rw [hidle] at hw
      rw [if_pos (by decide), hidle, Function.update_self]
      exact ⟨fun h => (nomatch h), hw.idle, hw.handed, fun h => (nomatch h), hw.stuck, hw.mark⟩
    | true =>
      have hskipped := RowOk.skipped hw head
      have hstill : (w.feed.registry.setSlot s { w.feed.registry.slots s with lastEventId := head }).isSlotStreaming s =
          w.feed.registry.isSlotStreaming s :=
        isSlotStreaming_of rfl (by rw [SSERegistry.slots_setSlot_self])
      unfold Served.SlotOk
      dsimp only
      rw [if_neg (by decide), hstill, SSERegistry.slots_setSlot_self, Function.update_self]
      exact hskipped
  · split
    · exact hw.same rfl rfl rfl (Function.update_of_ne hne _ _)
    · exact hw.same rfl (SSERegistry.slots_setSlot_of_ne _ hne _) rfl (Function.update_of_ne hne _ _)

theorem Served.SlotOk.drained {w : Served} {s : Int} (hw : w.SlotOk s) (slot : Int) :
    Served.SlotOk { w with
      feed := (w.feed.drain slot).1
      past := Function.update w.past slot { w.past slot with
        handed := (w.past slot).handed ++ (w.feed.drain slot).2, refused := false, taken := false } } s := by
  have hrow := SSERegistry.slots_drain w.feed.registry slot s
  have hcap := SSERegistry.capacity_drain w.feed.registry slot
  rcases Decidable.em (s = slot) with rfl | hne
  · have hout := SSERegistry.drained_eq w.feed.registry s
    rw [beq_self_eq_true, Bool.and_true] at hrow
    have hdrained := RowOk.drained hw
    have hempty : w.feed.registry.inRange s = false → (w.feed.registry.slots s).pendingBuf = [] := by
      intro hout
      apply hw.idle
      unfold SSERegistry.isSlotStreaming
      rw [hout]
      rfl
    have hsame : (w.feed.registry.drain s).1.slots s = { w.feed.registry.slots s with pendingBuf := [] } := by
      rw [hrow]
      split
      · rfl
      · next hnot =>
        rw [← hempty (Bool.not_eq_true _ ▸ hnot)]
    have hbytes : (w.feed.registry.drain s).2 = (w.feed.registry.slots s).pendingBuf := by
      rw [hout]
      split
      · rfl
      · next hnot => rw [hempty (Bool.not_eq_true _ ▸ hnot)]
    have hstreams := isSlotStreaming_of (s := s) hcap (by rw [hsame])
    unfold Served.SlotOk Feed.drain
    dsimp only
    rw [Function.update_self, hstreams, hsame, hbytes]
    exact hdrained
  · rw [beq_false_of_ne hne, Bool.and_false, if_neg Bool.false_ne_true] at hrow
    exact hw.same (inRange_of_capacity hcap s) hrow rfl (Function.update_of_ne hne _ _)

theorem Served.SlotOk.closed {w : Served} {s : Int} (hw : w.SlotOk s) (slot : Int) :
    Served.SlotOk { w with
      feed := w.feed.closed slot
      past := Function.update w.past slot { w.past slot with refused := false, taken := false } } s := by
  have hrow := SSERegistry.slots_unsubscribe w.feed.registry slot s
  have hcap := SSERegistry.capacity_unsubscribe w.feed.registry slot
  have hregistry : (w.feed.closed slot).registry = w.feed.registry.unsubscribe slot := by
    unfold Feed.closed
    dsimp only
    split
    · rfl
    · rfl
  have hmarks : (w.feed.closed slot).refusedAt =
      if w.feed.registry.inRange slot then Function.update w.feed.refusedAt slot (-1) else w.feed.refusedAt := by
    unfold Feed.closed
    dsimp only
    split
    · rfl
    · rfl
  rcases Decidable.em (s = slot) with rfl | hne
  · rw [beq_self_eq_true, Bool.and_true] at hrow
    unfold Served.SlotOk at hw ⊢
    dsimp only
    rw [Function.update_self, hregistry, hmarks]
    cases hin : w.feed.registry.inRange s with
    | false =>
      have hidle : w.feed.registry.isSlotStreaming s = false := by
        unfold SSERegistry.isSlotStreaming
        rw [hin]
        rfl
      rw [hin, if_neg Bool.false_ne_true] at hrow
      rw [hidle] at hw
      rw [isSlotStreaming_of hcap (by rw [hrow]), hidle, hrow, if_neg Bool.false_ne_true]
      exact hw.forgotten
    | true =>
      rw [hin, if_pos rfl] at hrow
      have hidle : (w.feed.registry.unsubscribe s).isSlotStreaming s = false := by
        rw [← Bool.not_eq_true, SSERegistry.isSlotStreaming_iff, hrow]
        exact fun h => (nomatch h.2)
      rw [hidle, hrow, if_pos rfl, Function.update_self]
      exact hw.closed
  · rw [beq_false_of_ne hne, Bool.and_false, if_neg Bool.false_ne_true] at hrow
    refine hw.same ?_ ?_ ?_ (Function.update_of_ne hne _ _)
    · dsimp only
      rw [hregistry]
      exact inRange_of_capacity hcap s
    · dsimp only
      rw [hregistry, hrow]
    · dsimp only
      rw [hmarks]
      split
      · exact Function.update_of_ne hne _ _
      · rfl

/-- **Every step** keeps what a feed has for each slot. -/
theorem Served.SlotOk.step {w w' : Served} (hw : ∀ s, w.SlotOk s) {l : Step} (hstep : w.step l = some w')
    (s : Int) : w'.SlotOk s := by
  cases l with
  | opened slotId lastEventId since key =>
    obtain ⟨out, hout, rfl⟩ := Option.map_eq_some_iff.mp hstep
    rcases open_cases hout with ⟨hsame, hproblem⟩ | ⟨hnone, hin, hcap, hslots, hmarks, -⟩
    · refine (hw s).same ?_ ?_ ?_ ?_
      · show out.1.registry.inRange s = _
        rw [hsame]
      · show out.1.registry.slots s = _
        rw [hsame]
      · show out.1.refusedAt s = _
        rw [hsame]
      · show (if out.2.isSome = true then w.past else _) s = _
        rw [if_pos hproblem]
    · rcases Decidable.em (s = slotId) with rfl | hne
      · have hrow := hslots s
        rw [if_pos rfl] at hrow
        have hstreams : out.1.registry.isSlotStreaming s = true := by
          rw [SSERegistry.isSlotStreaming_iff, inRange_of_capacity hcap, hrow]
          exact ⟨hin, rfl⟩
        show RowOk (out.1.registry.isSlotStreaming s) (out.1.registry.slots s) (out.1.refusedAt s)
          ((if out.2.isSome = true then w.past else
            Function.update w.past s ⟨[], [], sinceOf lastEventId since, false, false⟩) s)
        rw [hstreams, hrow, hmarks, hnone, Option.isSome_none, if_neg Bool.false_ne_true, Function.update_self,
          Function.update_self]
        exact rowOk_opened key _
      · refine (hw s).same (inRange_of_capacity hcap s) ?_ ?_ ?_
        · show out.1.registry.slots s = _
          rw [hslots, if_neg hne]
        · show out.1.refusedAt s = _
          rw [hmarks, Function.update_of_ne hne]
        · show (if out.2.isSome = true then w.past else _) s = _
          rw [hnone, Option.isSome_none, if_neg Bool.false_ne_true, Function.update_of_ne hne]
  | behind head =>
    obtain rfl := Option.some.inj hstep
    exact (hw s).same rfl rfl rfl rfl
  | send slot head frames =>
    obtain rfl := Option.some.inj hstep
    exact (hw s).sent slot head frames
  | skip slot head =>
    obtain rfl := Option.some.inj hstep
    exact (hw s).skipped slot head
  | drain slot =>
    obtain rfl := Option.some.inj hstep
    exact (hw s).drained slot
  | closed slot =>
    obtain rfl := Option.some.inj hstep
    exact (hw s).closed slot
  | takeReady =>
    obtain rfl := Option.some.inj hstep
    exact (hw s).same rfl rfl rfl rfl

/-! ## Who is behind -/

/-- The slot is not standing at `head`, and holds what it held when it was refused. -/
def leftOut (f : Feed) (head slot : Int) : Bool :=
  (f.registry.slots slot).isStreaming && (f.registry.slots slot).lastEventId != head &&
    (f.refusedAt slot ≥ 0 && ((f.registry.slots slot).pendingBuf.length : Int) == f.refusedAt slot)

/-- The slot is not standing at `head`, and is asked for. -/
def named (f : Feed) (head slot : Int) : Bool :=
  (f.registry.slots slot).isStreaming && (f.registry.slots slot).lastEventId != head &&
    !(f.refusedAt slot ≥ 0 && ((f.registry.slots slot).pendingBuf.length : Int) == f.refusedAt slot)

theorem behindSlot_eq (f : Feed) (head : Int) (acc : Bool × List Int) (slot : Int) :
    f.behindSlot head acc slot =
      (acc.1 || f.leftOut head slot, acc.2 ++ if f.named head slot then [slot] else []) := by
  unfold behindSlot leftOut named
  dsimp only
  cases hstreams : (f.registry.slots slot).isStreaming with
  | false => simp
  | true =>
    cases hat : (f.registry.slots slot).lastEventId == head with
    | true => simp [bne, hat]
    | false =>
      simp only [bne, hat, Bool.not_true, Bool.not_false, Bool.or_false, Bool.true_and, if_neg Bool.false_ne_true]
      cases (decide (f.refusedAt slot ≥ 0) &&
        ((f.registry.slots slot).pendingBuf.length : Int) == f.refusedAt slot) <;> simp

theorem foldl_behindSlot (f : Feed) (head : Int) (slots : List Int) (acc : Bool × List Int) :
    slots.foldl (f.behindSlot head) acc =
      (acc.1 || slots.any (f.leftOut head), acc.2 ++ slots.filter (f.named head)) := by
  induction slots generalizing acc with
  | nil => simp
  | cons slot slots ih =>
    rw [List.foldl_cons, ih, behindSlot_eq, List.any_cons, List.filter_cons, Bool.or_assoc, List.append_assoc]
    cases f.named head slot <;> rfl

/-- What the marks say of a slot is what has become of it. -/
theorem Served.SlotOk.stuck_eq {w : Served} {s : Int} (h : w.SlotOk s) :
    (decide (w.feed.refusedAt s ≥ 0) &&
      ((w.feed.registry.slots s).pendingBuf.length : Int) == w.feed.refusedAt s) =
      ((w.past s).refused && !(w.past s).taken) := by
  have hstuck := RowOk.stuck h
  rw [Bool.eq_iff_iff, Bool.and_eq_true, Bool.and_eq_true, decide_eq_true_eq, beq_iff_eq, Bool.not_eq_true']
  exact hstuck

theorem streaming_eq {r : SSERegistry} {s : Int} (hs : s ∈ slotRange r.capacity) :
    r.isSlotStreaming s = (r.slots s).isStreaming := by
  have hin : r.inRange s = true := by
    rw [mem_slotRange] at hs
    simpa [SSERegistry.inRange] using hs
  unfold SSERegistry.isSlotStreaming
  rw [hin]
  rfl

/-- The slots that `behind` names: those streaming that are not at `head`, but for the ones refused. -/
def Served.behind (w : Served) (head slot : Int) : Bool :=
  w.feed.registry.isSlotStreaming slot && (w.past slot).stands != head &&
    !((w.past slot).refused && !(w.past slot).taken)

theorem leftOut_eq {w : Served} {s : Int} (h : w.SlotOk s) (hs : s ∈ slotRange w.feed.registry.capacity) (head : Int) :
    w.feed.leftOut head s = w.leavesOut head s ∧ w.feed.named head s = w.behind head s := by
  have hstreams := streaming_eq hs
  unfold leftOut named Served.leavesOut Served.behind
  rw [h.stuck_eq, hstreams]
  cases hstreaming : (w.feed.registry.slots s).isStreaming with
  | false => exact ⟨rfl, rfl⟩
  | true =>
    have hstands := RowOk.stands h (hstreams.trans hstreaming)
    rw [hstands]
    exact ⟨rfl, rfl⟩

/-- **`behind`** names the slots behind, and says whether it left one out. -/
theorem behind_eq {w : Served} (hw : ∀ s, w.SlotOk s) (head : Int) :
    (w.feed.behind head).2 = (slotRange w.feed.registry.capacity).filter (w.behind head) ∧
      (w.feed.behind head).1.lagging = (slotRange w.feed.registry.capacity).any (w.leavesOut head) := by
  unfold behind
  dsimp only
  rw [foldl_behindSlot, List.nil_append, Bool.false_or]
  constructor
  · exact List.filter_congr fun s hs => (leftOut_eq (hw s) hs head).2
  · rw [Bool.eq_iff_iff, List.any_eq_true, List.any_eq_true]
    constructor
    · rintro ⟨s, hs, hleft⟩
      exact ⟨s, hs, (leftOut_eq (hw s) hs head).1 ▸ hleft⟩
    · rintro ⟨s, hs, hleft⟩
      exact ⟨s, hs, (leftOut_eq (hw s) hs head).1.symm ▸ hleft⟩

/-- A feed that owes a slot something is lagging. -/
theorem lagging_step {w w' : Served} (hw : ∀ s, w.SlotOk s) (howing : w.owing = true → w.feed.lagging = true)
    {l : Step} (hstep : w.step l = some w') : w'.owing = true → w'.feed.lagging = true := by
  cases l with
  | opened slotId lastEventId since key =>
    obtain ⟨out, hout, rfl⟩ := Option.map_eq_some_iff.mp hstep
    rcases open_cases hout with ⟨hsame, -⟩ | ⟨-, -, -, -, -, hlagging⟩
    · show w.owing = true → out.1.lagging = true
      rw [hsame]
      exact howing
    · exact fun _ => hlagging
  | behind head =>
    obtain rfl := Option.some.inj hstep
    intro hleft
    exact (behind_eq hw head).2.trans hleft
  | send slot head frames =>
    obtain rfl := Option.some.inj hstep
    intro how
    cases hstreams : w.feed.registry.isSlotStreaming slot with
    | false =>
      dsimp only at how ⊢
      rw [send_idle hstreams] at how ⊢
      rw [hstreams, Bool.false_and, Bool.or_false] at how
      exact howing how
    | true =>
      cases hsent : (w.feed.send slot head frames).2 with
      | false => exact (send_refused hstreams hsent).2.2.2
      | true =>
        dsimp only at how ⊢
        rw [hsent, Bool.not_true, Bool.and_false, Bool.or_false] at how
        have hsame : (w.feed.send slot head frames).1.lagging = w.feed.lagging := by
          unfold send at hsent ⊢
          rw [if_neg (by rw [hstreams]; decide)] at hsent ⊢
          dsimp only at hsent ⊢
          split at hsent
          · cases hsent
          · next hfits => rw [if_neg hfits]
        rw [hsame]
        exact howing how
  | skip slot head =>
    obtain rfl := Option.some.inj hstep
    show w.owing = true → (w.feed.skip slot head).lagging = true
    unfold skip
    split
    · exact howing
    · exact howing
  | drain slot =>
    obtain rfl := Option.some.inj hstep
    exact howing
  | closed slot =>
    obtain rfl := Option.some.inj hstep
    show w.owing = true → (w.feed.closed slot).lagging = true
    unfold closed
    dsimp only
    split
    · exact howing
    · exact howing
  | takeReady =>
    obtain rfl := Option.some.inj hstep
    exact howing

/-! ## Runs -/

/-- What a feed does for its subscribers. -/
structure ServesInOrder (w : Served) : Prop where
  /-- Whole frames, in order, of those that were accepted since the open. -/
  handed : ∀ s, (w.past s).handed <+: (w.past s).accepted.flatten
  stands : ∀ s, w.feed.registry.isSlotStreaming s = true → w.feed.at s = (w.past s).stands
  behind : ∀ head, (w.feed.behind head).2 = (slotRange w.feed.registry.capacity).filter (w.behind head)
  lagging : w.owing = true → w.feed.lagging = true

theorem ok_run {capacity : Nat} (x : (system capacity).Execution) :
    ∀ k ≤ x.labels.length, (∀ s, (x.state k).SlotOk s) ∧
      ((x.state k).owing = true → (x.state k).feed.lagging = true) := by
  refine x.invariant (I := fun w => (∀ s, w.SlotOk s) ∧ (w.owing = true → w.feed.lagging = true))
    ⟨fun s => ?_, fun h => (nomatch h)⟩ fun w l w' hw hnext => ?_
  · have hidle : (SSERegistry.new capacity).isSlotStreaming s = false := by
      unfold SSERegistry.isSlotStreaming
      split
      · rfl
      · rfl
    show RowOk ((SSERegistry.new capacity).isSlotStreaming s) {} (-1) ⟨[], [], 0, false, false⟩
    rw [hidle]
    refine ⟨fun h => (nomatch h), fun _ => rfl, List.prefix_refl _, fun h => (nomatch h), ?_, Or.inl rfl⟩
    exact iff_of_false (fun h => absurd h.1 (by decide)) fun h => (nomatch h.1)
  · exact ⟨Served.SlotOk.step hw.1 hnext, lagging_step hw.1 hw.2 hnext⟩

def AlwaysServes {capacity : Nat} (x : (system capacity).Execution) : Prop :=
  ∀ k ≤ x.labels.length, ServesInOrder (x.state k)

/-- **A feed delivers every delta that it accepts, and forgets no one behind.** -/
theorem serves_in_order (capacity : Nat) (x : (system capacity).Execution) : AlwaysServes x := by
  intro k hk
  obtain ⟨hok, hlagging⟩ := ok_run x k hk
  refine ⟨fun s => RowOk.handed (hok s), fun s hstreams => ?_, fun head => (behind_eq hok head).1, hlagging⟩
  unfold Feed.at
  rw [if_pos (streaming_of hstreams).1]
  exact RowOk.stands (hok s) hstreams

theorem sent_iff {f : Feed} {slot : Int} (hstreams : f.registry.isSlotStreaming slot = true) (head : Int)
    (frames : Bytes) : (f.send slot head frames).2 = true ↔
      (f.registry.slots slot).pendingBuf = [] ∨
        (f.registry.slots slot).pendingBuf.length + frames.length ≤ FEED_SLOT_BUDGET := by
  unfold send
  rw [if_neg (by rw [hstreams]; decide)]
  dsimp only
  rw [← List.length_eq_zero_iff]
  split
  · next hfull =>
    rw [Bool.and_eq_true, decide_eq_true_eq, decide_eq_true_eq] at hfull
    exact iff_of_false Bool.false_ne_true (by omega)
  · next hfits =>
    rw [Bool.and_eq_true, decide_eq_true_eq, decide_eq_true_eq] at hfits
    exact iff_of_true rfl (by omega)

/-- A slot that was refused a large delta and takes a small one, nothing drained, is named again. -/
theorem not_all_refused_left_out :
    ¬ ∀ (capacity : Nat) (x : (system capacity).Execution), ∀ k ≤ x.labels.length, ∀ head,
      ((x.state k).feed.behind head).2 = (slotRange (x.state k).feed.registry.capacity).filter fun slot =>
        (x.state k).feed.registry.isSlotStreaming slot && ((x.state k).past slot).stands != head &&
          !((x.state k).past slot).refused := by
  intro hall
  obtain ⟨big, hbig⟩ : ∃ big : Bytes, big.length = FEED_SLOT_BUDGET :=
    ⟨List.replicate FEED_SLOT_BUDGET 0, List.length_replicate⟩
  let x := LabelledSystem.Execution.ofRun (system 1)
    [.opened 0 none none [], .send 0 1 [120], .send 0 2 big, .send 0 3 [121]] rfl
  have hlength : 4 ≤ x.labels.length := Nat.le_refl 4
  have hstreams : (x.state 2).feed.registry.isSlotStreaming 0 = true := rfl
  have hpending : ((x.state 2).feed.registry.slots 0).pendingBuf = [120] := rfl
  have hcapacity : (x.state 2).feed.registry.capacity = 1 := rfl
  have hlabels : x.labels = [.opened 0 none none [], .send 0 1 [120], .send 0 2 big, .send 0 3 [121]] := rfl
  have hthird : (x.state 2).step (.send 0 2 big) = some (x.state 3) :=
    x.steps (k := 2) (l := .send 0 2 big) (by rw [hlabels]; rfl)
  have hfourth : (x.state 3).step (.send 0 3 [121]) = some (x.state 4) :=
    x.steps (k := 3) (l := .send 0 3 [121]) (by rw [hlabels]; rfl)
  have hall := hall 1 x 4 hlength 4
  rw [(behind_eq (ok_run x 4 hlength).1 4).1] at hall
  clear_value x
  generalize x.state 2 = w₂ at hstreams hpending hcapacity hthird
  generalize x.state 3 = w₃ at hthird hfourth
  generalize x.state 4 = w₄ at hfourth hall
  -- refused beside the byte pending
  have hrefused : (w₂.feed.send 0 2 big).2 = false := by
    rw [← Bool.not_eq_true, sent_iff hstreams, hpending, hbig]
    decide
  obtain ⟨-, hregistry, -, -⟩ := send_refused hstreams hrefused
  obtain ⟨hfeed₃, hpast₃⟩ : w₃.feed = (w₂.feed.send 0 2 big).1 ∧ (w₃.past 0).refused = true := by
    obtain rfl := Option.some.inj hthird
    refine ⟨rfl, ?_⟩
    dsimp only
    rw [hstreams, if_neg (by decide), hrefused, if_neg Bool.false_ne_true, Function.update_self]
  rw [← hfeed₃] at hregistry
  rw [← hregistry] at hstreams hpending hcapacity
  -- and taken beside it
  have hsent : (w₃.feed.send 0 3 [121]).2 = true := by
    rw [sent_iff hstreams, hpending]
    decide
  obtain ⟨hfeed₄, hpast₄⟩ : w₄.feed = (w₃.feed.send 0 3 [121]).1 ∧
      w₄.past 0 = { w₃.past 0 with
        accepted := (w₃.past 0).accepted ++ [[121]], stands := 3, taken := (w₃.past 0).refused } := by
    obtain rfl := Option.some.inj hfourth
    refine ⟨rfl, ?_⟩
    dsimp only
    rw [hstreams, if_neg (by decide), hsent, if_pos rfl, Function.update_self]
  obtain ⟨hrow, hcap, -⟩ := slots_send hsent 0
  have hstill : w₄.feed.registry.isSlotStreaming 0 = true := by
    rw [hfeed₄, isSlotStreaming_of hcap (by rw [hrow, if_pos rfl])]
    exact hstreams
  have hmem : (0 : Int) ∈ (slotRange w₄.feed.registry.capacity).filter (w₄.behind 4) := by
    rw [List.mem_filter, hfeed₄, hcap, hcapacity]
    refine ⟨by decide, ?_⟩
    unfold Served.behind
    rw [hstill, hpast₄, hpast₃]
    rfl
  rw [hall, List.mem_filter, hpast₄, hpast₃, Bool.not_true, Bool.and_false] at hmem
  cases hmem.2

end Feed

end MojoHttp
