import MojoHttp.Lib.Execution
import MojoHttp.Lib.Marked
import MojoHttp.Wsgi.ChannelNames
import MojoHttp.Wsgi.Parked

/-!
# A socket's messages on their way to its application (`handler.mojo`, `m0_shim.py`)

What the loop takes from the sockets that an executor holds is placed on the executor's channel or parked;
the executor reads the channel into the socket's inbox, its application receives from there, and what it
has consumed comes back in `r` frames, some of them late or never. Other sockets' messages, refusals and
retries come between.

* **`Core.forward`**, **`Sound.drainParked`** — one attempt, and a whole replay, keep the accounts.
* **`Inbound.faithful`** — every run: messages arrive in order, once each, and the window comes back whole.
-/

namespace MojoHttp

open WSGIHandler

/-- Eight little-endian bytes, as an `r` frame carries its count. -/
def i64Le (n : Int) : Bytes := LittleEndian.bytes 8 (n % 2 ^ 64).toNat

/-- What `_exec_on_ws_message` says a message costs. -/
def inboxCost (payload : Bytes) : Int :=
  let cost : Int := (WS_TAG_HEADER : Int) + payload.length
  if cost > WS_IN_WINDOW then WS_IN_WINDOW else cost

/-- One socket since its begin: what the loop took from it, and where its application is. -/
structure Reader where
  /-- What the handler had sent at the begin. -/
  base : Nat
  /-- `ws_message_take` was called with these. -/
  taken : List Message
  /-- How many datagrams the executor has read. -/
  read : Nat
  /-- `_exec_ws_inbox[slot]`: the messages and their costs. -/
  inbox : List (Message × Int)
  received : List Message
  /-- `consumed[0]` -/
  consumed : Int
  /-- The counts of the `r` frames. -/
  acks : List Int
  /-- Those that the handler has been given. -/
  arrived : List Int
  /-- `_task_gone` -/
  gone : Bool

structure Inbound where
  h : WSGIHandler
  readers : Int → Reader

namespace Reader

def fresh (base : Nat) : Reader := ⟨base, [], 0, [], [], 0, [], [], false⟩

/-- The messages that the handler has placed on the channel. -/
def placed (g : Reader) (h : WSGIHandler) (slot : Int) : List Message :=
  messagesFor slot (h.sent.drop g.base)

/-- `_exec_on_ws_message`. -/
def onWsMessage (g : Reader) (m : Message) : Reader :=
  { g with read := g.read + 1, inbox := g.inbox ++ [(m, inboxCost m.2)] }

/-- `receive()`, of a message in the inbox. -/
def receive (g : Reader) (m : Message) (cost : Int) (rest : List (Message × Int)) : Reader :=
  let g := { g with inbox := rest, received := g.received ++ [m] }
  if cost != 0 && !g.gone then
    { g with consumed := g.consumed + cost, acks := g.acks ++ [g.consumed + cost] }
  else g

end Reader

namespace Inbound

inductive Label where
  /-- `B`. -/
  | begin (slot : Nat) (lane gen : Int)
  /-- `ws_message_take`; `taken` is the channel's answer. -/
  | take (slot : Nat) (opcode : UInt8) (payload : Bytes) (taken : Bool)
  /-- An `r` frame, with the channel's answers to the retries. -/
  | ack (slot : Nat) (lane gen total : Int) (answers : List Bool)
  /-- `take_ws_resumes`. -/
  | resumes (answers : Int → List Bool)
  /-- The executor reads the next datagram. -/
  | read (slot : Nat)
  | receive (slot : Nat)
  | disconnected (slot : Nat)

/-- An `r` frame under the socket's generation is one that its application's task was answered with; a count
past 63 bits cannot be written. -/
def mayArrive (w : Inbound) (slot gen total : Int) : Bool :=
  !w.h.genMatches slot gen || (w.readers slot).acks.contains total && total < 2 ^ 63

def next (w : Inbound) : Label → Option Inbound
  | .begin slot lane gen =>
    some ⟨w.h.ssePeerFrame (reservedStreamUrl 0x42 slot lane) gen [] 0 [],
      Function.update w.readers slot (Reader.fresh w.h.sent.length)⟩
  | .take slot opcode payload taken =>
    -- within the channel's room
    if w.h.execHeld slot && WS_DATAGRAM_MAX - WS_TAG_HEADER < payload.length then none
    else
      some ⟨(w.h.wsMessageTake slot opcode payload taken).1,
        Function.update w.readers slot
          { w.readers slot with taken := (w.readers slot).taken ++ [(opcode, payload)] }⟩
  | .ack slot lane gen total answers =>
    if w.mayArrive slot gen total then
      some ⟨w.h.ssePeerFrame (reservedStreamUrl 0x72 slot lane) gen (i64Le total) 0 answers,
        if w.h.genMatches slot gen then
          Function.update w.readers slot
            { w.readers slot with arrived := (w.readers slot).arrived ++ [total] }
        else w.readers⟩
    else none
  | .resumes answers => some { w with h := (w.h.takeWsResumes answers).1 }
  | .read slot =>
    match ((w.readers slot).placed w.h slot)[(w.readers slot).read]? with
    | none => none
    | some m => some { w with
        readers := Function.update w.readers slot ((w.readers slot).onWsMessage m) }
  | .receive slot =>
    match (w.readers slot).inbox with
    | [] => none
    | (m, cost) :: rest => some { w with
        readers := Function.update w.readers slot ((w.readers slot).receive m cost rest) }
  | .disconnected slot =>
    some ⟨w.h.sseSlotDisconnected slot,
      Function.update w.readers slot { w.readers slot with gone := true }⟩

def initial (slots : Nat) (replayFrames : Int) (sharedId asgiNotify abortPool : Bool)
    (poolFd : Int → Bool) : Inbound :=
  ⟨WSGIHandler.new slots replayFrames sharedId asgiNotify abortPool poolFd, fun _ => Reader.fresh 0⟩

def system (w : Inbound) : LabelledSystem Inbound Label := ⟨w, next⟩

end Inbound

/-! ## The accounts -/

/-- How many of the slots have messages parked. -/
def parkedSlots (slots : Nat) (parked : Int → Bytes) : Int :=
  ((slotRange slots).countP fun s => 0 < (parked s).length : Nat)

/-- What the socket's messages have cost. -/
def cost (messages : List Message) : Int := (messages.map fun m => wsInCost m.2.length).sum

/-- One socket that an executor holds, `owed` of whose messages are not placed yet. -/
structure Accounts (h : WSGIHandler) (slot : Int) (g : Reader) (owed : List Message) : Prop where
  base : g.base ≤ h.sent.length
  taken : g.taken = g.placed h slot ++ owed
  short : ∀ m ∈ owed, m.Short
  read : g.read ≤ (g.placed h slot).length
  order : g.received ++ g.inbox.map Prod.fst = (g.placed h slot).take g.read
  costs : ∀ e ∈ g.inbox, e.2 = wsInCost e.1.2.length
  /-- What was charged is consumed, or still on its way. -/
  charged : g.consumed + (g.inbox.map Prod.snd).sum + cost ((g.placed h slot).drop g.read) = h.wsInSent slot
  acks : ∀ t ∈ g.acks, 0 ≤ t ∧ t ≤ g.consumed
  last : g.acks.getLast?.getD 0 = g.consumed
  arrived : ∀ t ∈ g.arrived, t ≤ h.wsInAcked slot
  here : g.gone = false

/-- The loop's side of all sockets. -/
structure Core (h : WSGIHandler) (readers : Int → Reader) (owed : Int → List Message) : Prop where
  shaped : h.Shaped
  window : ∀ slot, h.inTable slot = true → 0 ≤ h.wsInAcked slot ∧ h.wsInAcked slot ≤ h.wsInSent slot ∧
    h.wsInSent slot - h.wsInAcked slot ≤ WS_IN_WINDOW
  accounts : ∀ slot, h.execHeld slot = true → Accounts h slot (readers slot) (owed slot)

namespace Inbound

structure Sound (w : Inbound) : Prop where
  core : ∃ owed, Core w.h w.readers owed ∧
    ∀ slot, w.h.execHeld slot = true → w.h.wsParked slot = records (owed slot)
  count : w.h.wsParkedCount = parkedSlots w.h.slots w.h.wsParked

end Inbound

/-! ### Costs -/

theorem inboxCost_eq (payload : Bytes) : inboxCost payload = wsInCost payload.length := by
  unfold inboxCost wsInCost
  have hwindow : WS_IN_WINDOW = 65536 := rfl
  dsimp only
  split
  · omega
  · omega

theorem wsInCost_pos (n : Nat) : 0 < wsInCost n := by
  unfold wsInCost
  have hwindow : WS_IN_WINDOW = 65536 := rfl
  have htag : WS_TAG_HEADER = 10 := rfl
  omega

theorem cost_append (as bs : List Message) : cost (as ++ bs) = cost as + cost bs := by
  unfold cost
  rw [List.map_append, List.sum_append]

theorem cost_nonneg (messages : List Message) : 0 ≤ cost messages := by
  induction messages with
  | nil => exact Int.le_refl 0
  | cons m messages ih => exact Int.add_nonneg (Int.le_of_lt (wsInCost_pos m.2.length)) ih

theorem inbox_nonneg {inbox : List (Message × Int)} (hcosts : ∀ e ∈ inbox, e.2 = wsInCost e.1.2.length) :
    0 ≤ (inbox.map Prod.snd).sum := by
  induction inbox with
  | nil => exact Int.le_refl 0
  | cons e inbox ih =>
    have hrest := ih fun e' he => hcosts e' (List.mem_cons_of_mem _ he)
    have hone := wsInCost_pos e.1.2.length
    rw [← hcosts e List.mem_cons_self] at hone
    rw [List.map_cons, List.sum_cons]
    omega

/-- An `r` frame's count reads back. -/
theorem readI64Le_i64Le {n : Int} (hpos : 0 ≤ n) (hfits : n < 2 ^ 63) : readI64Le (i64Le n) = n := by
  have hmod : n % 2 ^ 64 = n := Int.emod_eq_of_lt hpos (by omega)
  have hnat : (n.toNat : Int) = n := Int.toNat_of_nonneg hpos
  have hlt : n.toNat < 2 ^ 63 := by omega
  have hbits : (List.range 8).foldl
      (fun bits i => bits + ((i64Le n).getD i 0).toNat <<< (8 * i)) 0 = n.toNat := by
    have hshift := LittleEndian.foldl_shift (i64Le n)
    rw [i64Le, LittleEndian.length_bytes, hmod,
      LittleEndian.value_bytes (hlt.trans (by norm_num))] at hshift
    rw [i64Le, hmod]
    exact hshift
  unfold readI64Le
  dsimp only
  rw [hbits, if_pos hlt, hnat]

/-! ### Parked slots -/

theorem parkedSlots_update {slots : Nat} {slot : Int} (hin : 0 ≤ slot ∧ slot < slots)
    (parked : Int → Bytes) (x : Bytes) :
    parkedSlots slots (Function.update parked slot x) =
      parkedSlots slots parked - (if 0 < (parked slot).length then 1 else 0) +
        if 0 < x.length then 1 else 0 := by
  have hcount := countP_update (nodup_slotRange slots) (mem_slotRange.mpr hin)
    (fun queue : Bytes => decide (0 < queue.length)) parked x
  simp only [decide_eq_true_eq] at hcount
  exact hcount

theorem records_append (as bs : List Message) : records (as ++ bs) = records as ++ records bs :=
  List.flatMap_append

theorem records_eq_nil {messages : List Message} : records messages = [] ↔ messages = [] := by
  constructor
  · intro h
    cases messages with
    | nil => rfl
    | cons m messages =>
      have hnone : parkedRecord m.1 m.2 = [] := List.flatMap_eq_nil_iff.mp h m List.mem_cons_self
      cases hnone
  · rintro rfl
    rfl

theorem Message.Short.lt {m : Message} (h : m.Short) : m.2.length < 256 ^ 4 := by
  have hroom : m.2.length ≤ 65536 := h
  norm_num
  omega

/-! ### One socket's accounts -/

section

variable {h h' : WSGIHandler} {slot : Int} {g : Reader} {owed : List Message}

theorem placed_append {extra : List Sent} (hbase : g.base ≤ h.sent.length)
    (hsent : h'.sent = h.sent ++ extra) :
    g.placed h' slot = g.placed h slot ++ messagesFor slot extra := by
  unfold Reader.placed
  rw [hsent, List.drop_append_of_le_length hbase, messagesFor_append]

theorem inTable_of_execHeld (hheld : h.execHeld slot = true) : h.inTable slot = true := by
  unfold execHeld at hheld
  simp only [Bool.and_eq_true] at hheld
  exact hheld.1.1.1.1

/-- Nothing is placed, and no more charged. -/
theorem Accounts.keep (ha : Accounts h slot g owed)
    (hsent : ∃ extra, h'.sent = h.sent ++ extra ∧ messagesFor slot extra = [])
    (hcharged : h'.wsInSent slot = h.wsInSent slot) (hacked : h.wsInAcked slot ≤ h'.wsInAcked slot) :
    Accounts h' slot g owed := by
  obtain ⟨extra, heq, hnone⟩ := hsent
  have hplaced : g.placed h' slot = g.placed h slot := by
    rw [placed_append ha.base heq, hnone, List.append_nil]
  refine ⟨?_, ?_, ha.short, ?_, ?_, ha.costs, ?_, ha.acks, ha.last, fun t ht => ?_, ha.here⟩
  · rw [heq, List.length_append]
    exact Nat.le_add_right_of_le ha.base
  · rw [hplaced, ha.taken]
  · rw [hplaced]
    exact ha.read
  · rw [hplaced]
    exact ha.order
  · rw [hplaced, hcharged]
    exact ha.charged
  · exact Int.le_trans (ha.arrived t ht) hacked

/-- The first message that is owed is placed. -/
theorem Accounts.place {m : Message} (ha : Accounts h slot g (m :: owed)) :
    Accounts (h.place slot m.1 m.2) slot g owed := by
  have hmessages : messagesFor slot [.wsMessage slot m.1 m.2] = [m] := by
    unfold messagesFor
    rw [List.filterMap_cons]
    dsimp only
    rw [if_pos rfl]
    rfl
  have hplaced : g.placed (h.place slot m.1 m.2) slot = g.placed h slot ++ [m] := by
    rw [placed_append ha.base (show (h.place slot m.1 m.2).sent = h.sent ++ [_] from rfl), hmessages]
  refine ⟨?_, ?_, fun m' hm => ha.short m' (List.mem_cons_of_mem _ hm), ?_, ?_, ha.costs, ?_, ha.acks,
    ha.last, ha.arrived, ha.here⟩
  · show g.base ≤ (h.sent ++ [_]).length
    rw [List.length_append]
    exact Nat.le_add_right_of_le ha.base
  · rw [hplaced, ha.taken, List.append_assoc]
    rfl
  · rw [hplaced, List.length_append]
    exact Nat.le_add_right_of_le ha.read
  · rw [hplaced, List.take_append_of_le_length ha.read]
    exact ha.order
  · show _ = Function.update h.wsInSent slot (h.wsInSent slot + wsInCost m.2.length) slot
    rw [hplaced, List.drop_append_of_le_length ha.read, cost_append, Function.update_self, ← ha.charged,
      ← Int.add_assoc]
    exact congrArg _ (Int.add_zero _)

/-- One more message is taken from the socket. -/
theorem Accounts.take (ha : Accounts h slot g owed) {m : Message} (hshort : m.Short) :
    Accounts h slot { g with taken := g.taken ++ [m] } (owed ++ [m]) where
  base := ha.base
  taken := by
    show g.taken ++ [m] = g.placed h slot ++ (owed ++ [m])
    rw [ha.taken, List.append_assoc]
  short m' hm := by
    rcases List.mem_append.mp hm with hm | hm
    · exact ha.short m' hm
    · rw [List.mem_singleton.mp hm]
      exact hshort
  read := ha.read
  order := ha.order
  costs := ha.costs
  charged := ha.charged
  acks := ha.acks
  last := ha.last
  arrived := ha.arrived
  here := ha.here

/-- What the application has consumed was charged. -/
theorem Accounts.consumed_le (ha : Accounts h slot g owed) : g.consumed ≤ h.wsInSent slot := by
  have hinbox := inbox_nonneg ha.costs
  have hchannel := cost_nonneg ((g.placed h slot).drop g.read)
  have hcharged := ha.charged
  omega

/-- The executor reads the next datagram. -/
theorem Accounts.onWsMessage (ha : Accounts h slot g owed) {m : Message}
    (hm : (g.placed h slot)[g.read]? = some m) : Accounts h slot (g.onWsMessage m) owed := by
  have ⟨hlt, hget⟩ := List.getElem?_eq_some_iff.mp hm
  refine ⟨ha.base, ha.taken, ha.short, hlt, ?_, fun e he => ?_, ?_, ha.acks, ha.last, ha.arrived, ha.here⟩
  · show g.received ++ (g.inbox ++ [(m, inboxCost m.2)]).map Prod.fst =
      (g.placed h slot).take (g.read + 1)
    rw [List.map_append, ← List.append_assoc, ha.order, List.take_succ_eq_append_getElem hlt, hget]
    rfl
  · rcases List.mem_append.mp he with he | he
    · exact ha.costs e he
    · rw [List.mem_singleton.mp he]
      exact inboxCost_eq m.2
  · show g.consumed + ((g.inbox ++ [(m, inboxCost m.2)]).map Prod.snd).sum +
      cost ((g.placed h slot).drop (g.read + 1)) = h.wsInSent slot
    have hdrop : cost ((g.placed h slot).drop g.read) =
        wsInCost m.2.length + cost ((g.placed h slot).drop (g.read + 1)) := by
      rw [List.drop_eq_getElem_cons hlt, hget]
      rfl
    have hcharged := ha.charged
    rw [hdrop] at hcharged
    rw [List.map_append, List.sum_append]
    show _ + (_ + (inboxCost m.2 + 0)) + _ = _
    rw [inboxCost_eq]
    omega

/-- The application receives the next message of its inbox. -/
theorem Accounts.receive (ha : Accounts h slot g owed) {m : Message} {cost : Int}
    {rest : List (Message × Int)} (hinbox : g.inbox = (m, cost) :: rest) :
    Accounts h slot (g.receive m cost rest) owed := by
  have hcost : cost = wsInCost m.2.length := ha.costs (m, cost) (by rw [hinbox]; exact List.mem_cons_self)
  have hpos : 0 < cost := by
    rw [hcost]
    exact wsInCost_pos _
  have hacks : g.receive m cost rest = { g with
      inbox := rest
      received := g.received ++ [m]
      consumed := g.consumed + cost
      acks := g.acks ++ [g.consumed + cost] } := by
    unfold Reader.receive
    dsimp only
    rw [ha.here, bne_iff_ne.mpr (by omega : cost ≠ 0)]
    rfl
  rw [hacks]
  refine ⟨ha.base, ha.taken, ha.short, ha.read, ?_, fun e he => ?_, ?_, fun t ht => ?_, ?_, ha.arrived,
    ha.here⟩
  · show g.received ++ [m] ++ rest.map Prod.fst = _
    have horder := ha.order
    rw [hinbox] at horder
    rw [List.append_assoc]
    exact horder
  · exact ha.costs e (by rw [hinbox]; exact List.mem_cons_of_mem _ he)
  · show g.consumed + cost + (rest.map Prod.snd).sum + _ = _
    have hcharged := ha.charged
    rw [hinbox, List.map_cons, List.sum_cons] at hcharged
    show g.consumed + cost + (rest.map Prod.snd).sum + MojoHttp.cost ((g.placed h slot).drop g.read) =
      h.wsInSent slot
    omega
  · have hnonneg : 0 ≤ g.consumed := by
      have hlast := ha.last
      cases hl : g.acks.getLast? with
      | none =>
        rw [hl] at hlast
        exact Int.le_of_eq hlast
      | some t =>
        rw [hl] at hlast
        have hmem := (ha.acks t (List.mem_of_getLast? hl)).1
        rw [← hlast]
        exact hmem
    rcases List.mem_append.mp ht with ht | ht
    · have hold := ha.acks t ht
      exact ⟨hold.1, by show t ≤ g.consumed + cost; omega⟩
    · rw [List.mem_singleton.mp ht]
      exact ⟨by omega, Int.le_refl _⟩
  · show (g.acks ++ [g.consumed + cost]).getLast?.getD 0 = g.consumed + cost
    rw [List.getLast?_concat]
    rfl

/-- An `r` frame of the socket's own has been heard. -/
theorem Accounts.arrive (ha : Accounts h slot g owed) {total : Int} (htotal : total ≤ h.wsInAcked slot) :
    Accounts h slot { g with arrived := g.arrived ++ [total] } owed where
  base := ha.base
  taken := ha.taken
  short := ha.short
  read := ha.read
  order := ha.order
  costs := ha.costs
  charged := ha.charged
  acks := ha.acks
  last := ha.last
  arrived t ht := by
    rcases List.mem_append.mp ht with ht | ht
    · exact ha.arrived t ht
    · rw [List.mem_singleton.mp ht]
      exact htotal
  here := ha.here

end

/-! ### The loop's side -/

section

variable {h h' : WSGIHandler} {slot : Int} {readers : Int → Reader} {owed : Int → List Message}

theorem WSGIHandler.Aside.not_held (ha : Aside h h') (hnot : h.execHeld slot = false) :
    h'.execHeld slot = false := by
  cases hyes : h'.execHeld slot with
  | false => rfl
  | true => exact nomatch hnot.symm.trans (ha.held slot hyes)

theorem Core.aside (hc : Core h readers owed) (ha : Aside h h') : Core h' readers owed := by
  refine ⟨ha.shaped hc.shaped, fun s hin => ?_, fun s hheld => ?_⟩
  · rw [ha.inSent, ha.inAcked]
    exact hc.window s ((ha.inTable s).symm.trans hin)
  · obtain ⟨extra, heq, hnone⟩ := ha.sent
    exact (hc.accounts s (ha.held s hheld)).keep ⟨extra, heq, hnone s⟩ (congrFun ha.inSent s)
      (Int.le_of_eq (congrFun ha.inAcked s).symm)

theorem Core.place (hc : Core h readers owed) (hheld : h.execHeld slot = true) {m : Message}
    {rest : List Message} (howed : owed slot = m :: rest)
    (hroom : h.wsInSent slot - h.wsInAcked slot + wsInCost m.2.length ≤ WS_IN_WINDOW) :
    Core (h.place slot m.1 m.2) readers (Function.update owed slot rest) := by
  refine ⟨⟨hc.shaped.streams, hc.shaped.sockets⟩, fun s hin => ?_, fun s hs => ?_⟩
  · have hwindow := hc.window s hin
    show _ ∧ _ ≤ Function.update h.wsInSent slot _ s ∧ Function.update h.wsInSent slot _ s - _ ≤ _
    rcases Decidable.em (s = slot) with rfl | hne
    · have hcost := wsInCost_pos m.2.length
      rw [Function.update_self]
      exact ⟨hwindow.1, by show h.wsInAcked s ≤ _; omega, by show _ - h.wsInAcked s ≤ _; omega⟩
    · rw [Function.update_of_ne hne]
      exact hwindow
  · have hbefore := hc.accounts s hs
    rcases Decidable.em (s = slot) with rfl | hne
    · rw [Function.update_self]
      rw [howed] at hbefore
      exact hbefore.place
    · rw [Function.update_of_ne hne]
      refine hbefore.keep ⟨[.wsMessage slot m.1 m.2], rfl, ?_⟩ ?_ (Int.le_refl _)
      · unfold messagesFor
        rw [List.filterMap_cons]
        dsimp only
        rw [if_neg (Ne.symm hne)]
        rfl
      · exact Function.update_of_ne hne _ _

/-- What a replay leaves of the handler. -/
structure Replayed (h h' : WSGIHandler) : Prop where
  slots : h'.slots = h.slots
  parked : h'.wsParked = h.wsParked
  count : h'.wsParkedCount = h.wsParkedCount
  held : ∀ s, h'.execHeld s = true → h.execHeld s = true

/-- A replay for a socket that an executor holds. -/
theorem Core.forwardAll (hc : Core h readers owed) (hheld : h.execHeld slot = true)
    {messages : List Message} (howed : owed slot = messages) (answers : List Bool) :
    Core (forwardAll slot h messages answers).1 readers
        (Function.update owed slot (WSGIHandler.forwardAll slot h messages answers).2) ∧
      Replayed h (WSGIHandler.forwardAll slot h messages answers).1 := by
  have hstay : ∀ messages, owed slot = messages → Core h readers (Function.update owed slot messages) := by
    intro messages heq
    rw [← heq, Function.update_eq_self]
    exact hc
  induction messages generalizing h owed answers with
  | nil => exact ⟨hstay [] howed, rfl, rfl, rfl, fun _ => id⟩
  | cons m messages ih =>
    have hshort : m.Short := (hc.accounts slot hheld).short m (by rw [howed]; exact List.mem_cons_self)
    rw [WSGIHandler.forwardAll]
    rcases wsForward_held hheld m.1 hshort (answers.headD false) with hrefused | ⟨hplaced, hroom⟩
    · rw [hrefused, if_neg Bool.false_ne_true]
      exact ⟨hstay _ howed, rfl, rfl, rfl, fun _ => id⟩
    · rw [hplaced, if_pos rfl]
      have hcore := hc.place hheld howed hroom
      obtain ⟨hrest, hkept⟩ := ih hcore hheld (Function.update_self ..) answers.tail (fun messages heq => by
        rw [← heq, Function.update_eq_self]
        exact hcore)
      rw [Function.update_idem] at hrest
      exact ⟨hrest, hkept.slots, hkept.parked, hkept.count, hkept.held⟩

/-- A replay for any other slot. -/
theorem aside_drainRecords {fuel : Nat} (hs : h.Shaped) (hnot : h.execHeld slot = false) (parked : Bytes)
    (answers : List Bool) : Aside h (drainRecords slot fuel h parked answers).1 := by
  induction fuel generalizing h parked answers with
  | zero => exact Aside.refl h
  | succ fuel ih =>
    rw [drainRecords]
    split
    · exact Aside.refl h
    · dsimp only
      split
      · exact Aside.refl h
      · have hone : Aside h (h.wsForward slot (parked.getD 0 0)
            (slice parked 5 (5 + recordLength parked)) (answers.headD false)).1 :=
          aside_wsForward hs _ _ fun hyes => Bool.noConfusion (hnot.symm.trans hyes.1)
        split
        · exact hone.trans (ih (hone.shaped hs) (hone.not_held hnot) _ _)
        · exact hone

/-- The parked queues are not what the accounts are about. -/
theorem Core.stored (hc : Core h readers owed) (parked : Int → Bytes) (count : Int) (resume : List Int) :
    Core { h with wsParked := parked, wsParkedCount := count, wsResume := resume } readers owed where
  shaped := ⟨hc.shaped.streams, hc.shaped.sockets⟩
  window := hc.window
  accounts s hs :=
    have ha := hc.accounts s hs
    ⟨ha.base, ha.taken, ha.short, ha.read, ha.order, ha.costs, ha.charged, ha.acks, ha.last, ha.arrived, ha.here⟩

/-- An `r` frame's count has been heard. -/
theorem Core.acked (hc : Core h readers owed) {count : Int} (hmore : h.wsInAcked slot < count)
    (hclamped : count ≤ h.wsInSent slot) :
    Core { h with wsInAcked := Function.update h.wsInAcked slot count } readers owed := by
  have hraised : ∀ s, h.wsInAcked s ≤ Function.update h.wsInAcked slot count s := by
    intro s
    rcases Decidable.em (s = slot) with rfl | hne
    · rw [Function.update_self]
      exact Int.le_of_lt hmore
    · rw [Function.update_of_ne hne]
  refine ⟨⟨hc.shaped.streams, hc.shaped.sockets⟩, fun s hin => ?_, fun s hheld => ?_⟩
  · have hwindow := hc.window s hin
    have hup := hraised s
    refine ⟨hwindow.1.trans hup, ?_, (Int.sub_le_sub_left hup _).trans hwindow.2.2⟩
    show Function.update h.wsInAcked slot count s ≤ h.wsInSent s
    rcases Decidable.em (s = slot) with rfl | hne
    · rw [Function.update_self]
      exact hclamped
    · rw [Function.update_of_ne hne]
      exact hwindow.2.1
  · exact (hc.accounts s hheld).keep ⟨[], (List.append_nil _).symm, rfl⟩ rfl (hraised s)

/-- Another message is taken from the socket of the slot. -/
theorem Core.take (hc : Core h readers owed) {m : Message} (hshort : h.execHeld slot = true → m.Short) :
    Core h (Function.update readers slot { readers slot with taken := (readers slot).taken ++ [m] })
      (Function.update owed slot (owed slot ++ [m])) := by
  refine ⟨hc.shaped, hc.window, fun s hheld => ?_⟩
  rcases Decidable.em (s = slot) with rfl | hne
  · rw [Function.update_self, Function.update_self]
    exact (hc.accounts s hheld).take (hshort hheld)
  · rw [Function.update_of_ne hne, Function.update_of_ne hne]
    exact hc.accounts s hheld

/-- The application of the socket of the slot gets on. -/
theorem Core.reader (hc : Core h readers owed) {g : Reader}
    (hg : h.execHeld slot = true → Accounts h slot (readers slot) (owed slot) → Accounts h slot g (owed slot)) :
    Core h (Function.update readers slot g) owed := by
  refine ⟨hc.shaped, hc.window, fun s hheld => ?_⟩
  rcases Decidable.em (s = slot) with rfl | hne
  · rw [Function.update_self]
    exact hg hheld (hc.accounts s hheld)
  · rw [Function.update_of_ne hne]
    exact hc.accounts s hheld

end

/-! ### Whole steps -/

namespace Inbound

section

variable {h h' : WSGIHandler} {slot : Int} {readers : Int → Reader} {owed : Int → List Message}

theorem Sound.aside (hs : Sound ⟨h, readers⟩) (ha : Aside h h') : Sound ⟨h', readers⟩ := by
  obtain ⟨owed, hc, hparked⟩ := hs.core
  refine ⟨⟨owed, hc.aside ha, fun s hheld => ?_⟩, ?_⟩
  · show h'.wsParked s = _
    rw [ha.parked]
    exact hparked s (ha.held s hheld)
  · show h'.wsParkedCount = parkedSlots h'.slots h'.wsParked
    rw [ha.count, ha.slots, ha.parked]
    exact hs.count

/-- The slot's queue is stored anew. -/
theorem sound_stored {bytes : Bytes} {count : Int} {resume : List Int} (hc : Core h' readers owed)
    (hr : Replayed h h') (hin : h.inTable slot = true)
    (hothers : ∀ s, s ≠ slot → h.execHeld s = true → h.wsParked s = records (owed s))
    (hself : h'.execHeld slot = true → bytes = records (owed slot))
    (hbefore : h.wsParkedCount = parkedSlots h.slots h.wsParked)
    (hcount : count = h.wsParkedCount - (if 0 < (h.wsParked slot).length then 1 else 0) +
      if 0 < bytes.length then 1 else 0) :
    Sound ⟨{ h' with
      wsParked := Function.update h'.wsParked slot bytes, wsParkedCount := count, wsResume := resume },
      readers⟩ := by
  refine ⟨⟨owed, hc.stored _ _ _, fun s hheld => ?_⟩, ?_⟩
  · show Function.update h'.wsParked slot bytes s = _
    rcases Decidable.em (s = slot) with rfl | hne
    · rw [Function.update_self]
      exact hself hheld
    · rw [Function.update_of_ne hne, hr.parked]
      exact hothers s hne (hr.held s hheld)
  · show count = parkedSlots h'.slots (Function.update h'.wsParked slot bytes)
    have hrange : 0 ≤ slot ∧ slot < h.slots := by
      simpa [WSGIHandler.inTable] using hin
    rw [hr.slots, hr.parked, parkedSlots_update hrange, hcount, hbefore]

theorem Sound.park (hs : Sound ⟨h, readers⟩) (hin : h.inTable slot = true) {readers' : Int → Reader}
    {m : Message} (hc : ∀ owed, Core h readers owed →
      Core h readers' (Function.update owed slot (owed slot ++ [m]))) :
    Sound ⟨h.wsPark slot m.1 m.2, readers'⟩ := by
  obtain ⟨owed, hcore, hparked⟩ := hs.core
  have hcount := hs.count
  refine sound_stored (hc owed hcore) ⟨rfl, rfl, rfl, fun _ => id⟩ hin (fun s hne hheld => ?_)
    (fun hheld => ?_) hcount ?_
  · rw [Function.update_of_ne hne]
    exact hparked s hheld
  · rw [Function.update_self, records_append]
    exact congrArg₂ _ (hparked slot hheld) (List.append_nil _).symm
  · have hlen := length_parkedRecord m.1 m.2
    rw [if_pos (show 0 < (h.wsParked slot ++ parkedRecord m.1 m.2).length by
      rw [List.length_append, hlen]; omega)]
    cases hempty : (h.wsParked slot).length with
    | zero =>
      show h.wsParkedCount + 1 = h.wsParkedCount - 0 + 1
      omega
    | succ n =>
      show h.wsParkedCount = h.wsParkedCount - 1 + 1
      omega

/-- A whole replay. -/
theorem Sound.drainParked (hs : Sound ⟨h, readers⟩) (slot : Int) (answers : List Bool) :
    Sound ⟨h.wsDrainParked slot answers, readers⟩ := by
  obtain ⟨owed, hc, hparked⟩ := hs.core
  have hcount : h.wsParkedCount = parkedSlots h.slots h.wsParked := hs.count
  unfold wsDrainParked
  split
  · exact hs
  · next hgo =>
    rw [Bool.or_eq_true, Bool.not_eq_true', beq_iff_eq, not_or, Bool.not_eq_false] at hgo
    obtain ⟨hin, hnonempty⟩ := hgo
    -- what the replay leaves of the messages is what it leaves of their records
    have hdrained : ∃ owed', Core (drainRecords slot (h.wsParked slot).length h (h.wsParked slot) answers).1
          readers owed' ∧
        Replayed h (drainRecords slot (h.wsParked slot).length h (h.wsParked slot) answers).1 ∧
        (∀ s, s ≠ slot → owed' s = owed s) ∧
        ((drainRecords slot (h.wsParked slot).length h (h.wsParked slot) answers).1.execHeld slot = true →
          (drainRecords slot (h.wsParked slot).length h (h.wsParked slot) answers).2 =
            records (owed' slot)) := by
      cases hheld : h.execHeld slot with
      | true =>
        have hshort := (hc.accounts slot hheld).short
        have heq : h.wsParked slot = records (owed slot) := hparked slot hheld
        have ⟨hcore, hkept⟩ := hc.forwardAll hheld rfl answers
        rw [heq, drainRecords_records (fun m hm => (hshort m hm).lt) (Nat.le_refl _)]
        refine ⟨_, hcore, hkept, fun s hne => Function.update_of_ne hne _ _, fun _ => ?_⟩
        rw [Function.update_self]
      | false =>
        have haside : Aside h (drainRecords slot (h.wsParked slot).length h (h.wsParked slot) answers).1 :=
          aside_drainRecords hc.shaped hheld _ _
        refine ⟨owed, hc.aside haside, ⟨haside.slots, haside.parked, haside.count, haside.held⟩,
          fun _ _ => rfl, fun hyes => ?_⟩
        exact nomatch (haside.not_held hheld).symm.trans hyes
    generalize drainRecords slot (h.wsParked slot).length h (h.wsParked slot) answers = drained at hdrained
    obtain ⟨owed', hcore, hkept, hsame, hleft⟩ := hdrained
    have hothers : ∀ s, s ≠ slot → h.execHeld s = true → h.wsParked s = records (owed' s) := by
      intro s hne hheld
      rw [hsame s hne]
      exact hparked s hheld
    dsimp only
    split
    · next hempty =>
      have hnil := List.isEmpty_iff.mp hempty
      refine sound_stored hcore hkept hin hothers (fun hheld => ?_) hcount ?_
      · rw [← hnil]
        exact hleft hheld
      · rw [hkept.count, if_pos (by omega), if_neg (by decide)]
        omega
    · next hrest =>
      have hpos : 0 < drained.2.length := by
        rw [List.length_pos_iff]
        exact fun hnil => hrest (by rw [hnil]; rfl)
      have hcount' : drained.1.wsParkedCount =
          h.wsParkedCount - (if 0 < (h.wsParked slot).length then 1 else 0) +
            if 0 < drained.2.length then 1 else 0 := by
        rw [hkept.count, if_pos (by omega), if_pos hpos]
        omega
      exact sound_stored hcore hkept hin hothers hleft hcount hcount'

theorem Sound.takeWsResumes (hs : Sound ⟨h, readers⟩) (answers : Int → List Bool) :
    Sound ⟨(h.takeWsResumes answers).1, readers⟩ := by
  have hfold : ∀ (l : List Int) (h : WSGIHandler), Sound ⟨h, readers⟩ →
      Sound ⟨l.foldl (fun h slot =>
        if 0 < (h.wsParked slot).length then h.wsDrainParked slot (answers slot) else h) h, readers⟩ := by
    intro l
    induction l with
    | nil => exact fun _ hs => hs
    | cons slot l ih =>
      intro h hs
      rw [List.foldl_cons]
      apply ih
      split
      · exact hs.drainParked slot (answers slot)
      · exact hs
  have hlast : ∀ h : WSGIHandler, Sound ⟨h, readers⟩ → Sound ⟨{ h with wsResume := [] }, readers⟩ := by
    intro h hs
    exact hs.aside ⟨rfl, rfl, rfl, rfl, rfl, rfl, rfl, rfl, ⟨[], (List.append_nil _).symm, fun _ => rfl⟩,
      fun _ => id⟩
  unfold WSGIHandler.takeWsResumes
  dsimp only
  apply hlast
  split
  · exact hfold _ h hs
  · exact hs

/-- `ws_message_take`, for the accounts of all sockets. -/
theorem Sound.wsMessageTake (hs : Sound ⟨h, readers⟩) {m : Message}
    (hshort : h.execHeld slot = true → m.Short) (taken : Bool) :
    Sound ⟨(h.wsMessageTake slot m.1 m.2 taken).1,
      Function.update readers slot { readers slot with taken := (readers slot).taken ++ [m] }⟩ := by
  have hpark : h.inTable slot = true → Sound ⟨h.wsPark slot m.1 m.2, _⟩ := fun hin =>
    hs.park hin fun owed hc => hc.take hshort
  unfold WSGIHandler.wsMessageTake
  dsimp only
  split
  · next hbehind => exact hpark (Bool.and_eq_true_iff.mp hbehind).1
  · next hfirst =>
    cases hheld : h.execHeld slot with
    | true =>
      have hin := inTable_of_execHeld hheld
      rcases wsForward_held hheld m.1 (hshort hheld) taken with hrefused | ⟨hplaced, hroom⟩
      · rw [hrefused, if_neg Bool.false_ne_true, if_pos hin]
        exact hpark hin
      · rw [hplaced, if_pos rfl]
        obtain ⟨owed, hc, hparked⟩ := hs.core
        have hnil : owed slot = [] := by
          rw [hin, Bool.true_and, decide_eq_true_eq] at hfirst
          rw [← records_eq_nil, ← hparked slot hheld, ← List.length_eq_zero_iff]
          exact Nat.eq_zero_of_not_pos hfirst
        have howed : Function.update owed slot (owed slot ++ [m]) slot = [m] := by
          rw [Function.update_self, hnil]
          rfl
        have hcore := (hc.take hshort).place hheld howed hroom
        refine ⟨⟨_, hcore, fun s hs => ?_⟩, hs.count⟩
        rcases Decidable.em (s = slot) with rfl | hne
        · rw [Function.update_self, ← hnil]
          exact hparked s hs
        · rw [Function.update_of_ne hne, Function.update_of_ne hne]
          exact hparked s hs
    | false =>
      obtain ⟨owed, hc, hparked⟩ := hs.core
      have haside : Aside h (h.wsForward slot m.1 m.2 taken).1 :=
        aside_wsForward hc.shaped _ _ fun hyes => nomatch hheld.symm.trans hyes.1
      have hreader : ∀ g, Sound ⟨h, Function.update readers slot g⟩ := fun g =>
        ⟨⟨owed, hc.reader fun hyes => (nomatch hheld.symm.trans hyes), hparked⟩, hs.count⟩
      have hafter := (hreader { readers slot with taken := (readers slot).taken ++ [m] }).aside haside
      split
      · exact hafter
      · split
        · next hin =>
          refine (hs.aside haside).park ((haside.inTable slot).trans hin) fun owed hc => ?_
          exact hc.take fun hyes => nomatch (haside.not_held hheld).symm.trans hyes
        · exact hafter

/-- An `r` frame. -/
theorem Sound.consumed (hs : Sound ⟨h, readers⟩) {gen total : Int}
    (harrive : mayArrive ⟨h, readers⟩ slot gen total = true) (answers : List Bool) :
    Sound ⟨h.consumed slot gen (i64Le total) answers,
      if h.genMatches slot gen then
        Function.update readers slot { readers slot with arrived := (readers slot).arrived ++ [total] }
      else readers⟩ := by
  unfold WSGIHandler.consumed
  cases hgen : h.genMatches slot gen with
  | false => exact hs
  | true =>
    have hin : h.inTable slot = true := (Bool.and_eq_true_iff.mp hgen).1
    have hlen : (i64Le total).length = 8 := LittleEndian.length_bytes 8 _
    have hanswer : (readers slot).acks.contains total = true ∧ total < 2 ^ 63 := by
      have hmay : (!h.genMatches slot gen || (readers slot).acks.contains total && total < 2 ^ 63) = true :=
        harrive
      rw [hgen, Bool.not_true, Bool.false_or, Bool.and_eq_true, decide_eq_true_eq] at hmay
      exact hmay
    rw [Bool.not_true, if_neg Bool.false_ne_true, hlen, if_neg (by decide), if_pos rfl]
    dsimp only
    apply Sound.drainParked
    obtain ⟨owed, hc, hparked⟩ := hs.core
    have hwindow := hc.window slot hin
    -- for a socket that an executor holds the count is what the frame says
    have hcount : h.execHeld slot = true → min (readI64Le (i64Le total)) (h.wsInSent slot) = total := by
      intro hheld
      have ha := hc.accounts slot hheld
      have hack := ha.acks total (List.contains_iff_mem.mp hanswer.1)
      rw [readI64Le_i64Le hack.1 hanswer.2]
      exact min_eq_left (hack.2.trans ha.consumed_le)
    have hclamped : min (readI64Le (i64Le total)) (h.wsInSent slot) ≤ h.wsInSent slot := min_le_right _ _
    generalize min (readI64Le (i64Le total)) (h.wsInSent slot) = count at hcount hclamped
    split
    · next hmore =>
      refine ⟨⟨owed, (hc.acked hmore hclamped).reader fun hheld ha => ?_, hparked⟩, hs.count⟩
      apply ha.arrive
      show total ≤ Function.update h.wsInAcked slot count slot
      rw [Function.update_self, hcount hheld]
    · next hstale =>
      refine ⟨⟨owed, hc.reader fun hheld ha => ha.arrive ?_, hparked⟩, hs.count⟩
      rw [← hcount hheld]
      exact Int.not_lt.mp hstale

/-! ### Begins and disconnects -/

/-- What a new tenant of the slot finds. -/
structure Resets (h h' : WSGIHandler) (slot : Int) : Prop where
  held : ∀ s, s ≠ slot → h'.execHeld s = true → h.execHeld s = true
  parked : h'.wsParked = if h.inTable slot then Function.update h.wsParked slot [] else h.wsParked
  count : h'.wsParkedCount =
    h.wsParkedCount - if h.inTable slot = true ∧ 0 < (h.wsParked slot).length then 1 else 0
  inSent : h'.wsInSent = if h.inTable slot then Function.update h.wsInSent slot 0 else h.wsInSent
  inAcked : h'.wsInAcked = if h.inTable slot then Function.update h.wsInAcked slot 0 else h.wsInAcked
  sent : ∃ extra, h'.sent = h.sent ++ extra ∧ ∀ s, messagesFor s extra = []

theorem resets_resetInbound (h : WSGIHandler) (slot : Int) : Resets h (h.resetInbound slot) slot := by
  have hnothing : ∃ extra, h.sent = h.sent ++ extra ∧ ∀ s, messagesFor s extra = [] :=
    ⟨[], (List.append_nil _).symm, fun _ => rfl⟩
  unfold resetInbound
  split
  · next hin =>
    dsimp only
    split
    · next hparked =>
      exact ⟨fun _ _ => id, (if_pos hin).symm, by rw [if_pos ⟨hin, hparked⟩], (if_pos hin).symm,
        (if_pos hin).symm, hnothing⟩
    · next hempty =>
      have hnil : h.wsParked slot = [] := List.length_eq_zero_iff.mp (Nat.eq_zero_of_not_pos hempty)
      refine ⟨fun _ _ => id, ?_, ?_, (if_pos hin).symm, (if_pos hin).symm, hnothing⟩
      · rw [if_pos hin, ← hnil, Function.update_eq_self]
      · rw [if_neg fun hboth => hempty hboth.2, Int.sub_zero]
  · next hout =>
    refine ⟨fun _ _ => id, (if_neg hout).symm, ?_, (if_neg hout).symm, (if_neg hout).symm, hnothing⟩
    rw [if_neg fun hboth => hout hboth.1, Int.sub_zero]

/-- What is done to the slot before its inbound window is reset. -/
structure Untouched (h h' : WSGIHandler) (slot : Int) : Prop where
  slots : h'.slots = h.slots
  asgi : h'.asgiNotify = h.asgiNotify
  lane : ∀ s, s ≠ slot → h'.holdLane s = h.holdLane s
  refused : ∀ s, s ≠ slot → h'.wsRefused s = h.wsRefused s
  streaming : ∀ s, s ≠ slot → h'.sockets.isSlotStreaming s = h.sockets.isSlotStreaming s
  parked : h'.wsParked = h.wsParked
  count : h'.wsParkedCount = h.wsParkedCount
  inSent : h'.wsInSent = h.wsInSent
  inAcked : h'.wsInAcked = h.wsInAcked
  sent : h'.sent = h.sent

theorem Untouched.trans {h'' : WSGIHandler} (ha : Untouched h h' slot) (hb : Untouched h' h'' slot) :
    Untouched h h'' slot where
  slots := hb.slots.trans ha.slots
  asgi := hb.asgi.trans ha.asgi
  lane s hne := (hb.lane s hne).trans (ha.lane s hne)
  refused s hne := (hb.refused s hne).trans (ha.refused s hne)
  streaming s hne := (hb.streaming s hne).trans (ha.streaming s hne)
  parked := hb.parked.trans ha.parked
  count := hb.count.trans ha.count
  inSent := hb.inSent.trans ha.inSent
  inAcked := hb.inAcked.trans ha.inAcked
  sent := hb.sent.trans ha.sent

/-- Only the streams and the tables of generations, ends and lanes change. -/
theorem Untouched.same (hslots : h'.slots = h.slots) (hasgi : h'.asgiNotify = h.asgiNotify)
    (hlane : h'.holdLane = h.holdLane) (hrefused : h'.wsRefused = h.wsRefused)
    (hsockets : h'.sockets = h.sockets) (hparked : h'.wsParked = h.wsParked)
    (hcount : h'.wsParkedCount = h.wsParkedCount) (hinSent : h'.wsInSent = h.wsInSent)
    (hinAcked : h'.wsInAcked = h.wsInAcked) (hsent : h'.sent = h.sent) : Untouched h h' slot :=
  ⟨hslots, hasgi, fun _ _ => by rw [hlane], fun _ _ => by rw [hrefused], fun _ _ => by rw [hsockets],
    hparked, hcount, hinSent, hinAcked, hsent⟩

theorem untouched_setDone (h : WSGIHandler) (value : Bool) : Untouched h (h.setDone slot value) slot := by
  unfold setDone
  split
  all_goals exact Untouched.same rfl rfl rfl rfl rfl rfl rfl rfl rfl rfl

theorem untouched_setExecLane (h : WSGIHandler) (lane : Int) :
    Untouched h (h.setExecLane slot lane) slot := by
  unfold setExecLane
  split
  all_goals exact Untouched.same rfl rfl rfl rfl rfl rfl rfl rfl rfl rfl

theorem untouched_clearLost (h : WSGIHandler) : Untouched h (h.clearLost slot) slot := by
  unfold clearLost
  split
  all_goals exact Untouched.same rfl rfl rfl rfl rfl rfl rfl rfl rfl rfl

theorem untouched_setStreamGen (h : WSGIHandler) (gen : Int) :
    Untouched h (h.setStreamGen slot gen) slot := by
  unfold setStreamGen
  split
  all_goals exact Untouched.same rfl rfl rfl rfl rfl rfl rfl rfl rfl rfl

theorem untouched_clearSlot (h : WSGIHandler) : Untouched h (h.clearSlot slot) slot := by
  unfold clearSlot
  split
  · exact ⟨rfl, rfl, fun _ hne => Function.update_of_ne hne _ _, fun _ hne => Function.update_of_ne hne _ _,
      fun _ _ => rfl, rfl, rfl, rfl, rfl, rfl⟩
  · exact Untouched.same rfl rfl rfl rfl rfl rfl rfl rfl rfl rfl

theorem untouched_sockets {r : SSERegistry} (hcap : r.capacity = h.sockets.capacity)
    (hother : ∀ s, s ≠ slot → r.slots s = h.sockets.slots s) :
    Untouched h { h with sockets := r } slot := by
  refine ⟨rfl, rfl, fun _ _ => rfl, fun _ _ => rfl, fun s hne => ?_, rfl, rfl, rfl, rfl, rfl⟩
  show r.isSlotStreaming s = _
  unfold SSERegistry.isSlotStreaming SSERegistry.inRange
  rw [hcap, hother s hne]

theorem Untouched.resets {h₁ : WSGIHandler} (hu : Untouched h h₁ slot) :
    Resets h (h₁.resetInbound slot) slot := by
  have hr := resets_resetInbound h₁ slot
  have hin : ∀ s, h₁.inTable s = h.inTable s := by
    intro s
    unfold WSGIHandler.inTable
    rw [hu.slots]
  refine ⟨fun s hne hheld => ?_, ?_, ?_, ?_, ?_, ?_⟩
  · have hbefore := hr.held s hne hheld
    unfold execHeld poolHeld at hbefore ⊢
    rw [hin, hu.asgi, hu.streaming s hne, hu.lane s hne, hu.refused s hne] at hbefore
    exact hbefore
  · rw [hr.parked, hin, hu.parked]
  · rw [hr.count, hin, hu.parked, hu.count]
  · rw [hr.inSent, hin, hu.inSent]
  · rw [hr.inAcked, hin, hu.inAcked]
  · rw [← hu.sent]
    exact hr.sent

theorem Resets.tell (hr : Resets h h' slot) {notice : List Sent} (hnone : ∀ s, messagesFor s notice = []) :
    Resets h { h' with sent := h'.sent ++ notice } slot := by
  obtain ⟨extra, heq, hnothing⟩ := hr.sent
  refine ⟨hr.held, hr.parked, hr.count, hr.inSent, hr.inAcked, extra ++ notice, ?_, fun s => ?_⟩
  · show h'.sent ++ notice = _
    rw [heq, List.append_assoc]
  · rw [messagesFor_append, hnothing, hnone]
    rfl

theorem resets_beginSocket (h : WSGIHandler) (slot : Int) (url : Bytes) (gen : Int) :
    Resets h (h.beginSocket slot url gen) slot := by
  have hsubscribed : Untouched h { h with sockets := h.sockets.subscribe slot url NO_EVENT_ID } slot := by
    refine untouched_sockets (SSERegistry.capacity_subscribe ..) fun s hne => ?_
    rw [SSERegistry.slots_subscribe]
    simp [hne]
  exact ((((hsubscribed.trans (untouched_setDone _ false)).trans (untouched_setExecLane _ _)).trans
    (untouched_clearLost _)).trans (untouched_setStreamGen _ gen)).resets

theorem messagesFor_disconnectNotice (h : WSGIHandler) (slot s : Int) :
    messagesFor s (h.disconnectNotice slot) = [] := by
  have hnone : ∀ (p q : Prop) [Decidable p] [Decidable q] (fd lane code : Int),
      messagesFor s (if p then [.poolDisconnect fd slot] else if q then [.disconnect lane slot code] else []) =
        [] := by
    intro p q _ _ fd lane code
    split
    · rfl
    · split
      · rfl
      · rfl
  exact hnone ..

theorem resets_sseSlotDisconnected (h : WSGIHandler) (slot : Int) :
    Resets h (h.sseSlotDisconnected slot) slot := by
  have hgone : Untouched h { h with
      streams := h.streams.unsubscribe slot, sockets := h.sockets.unsubscribe slot } slot := by
    have hstreams : Untouched h { h with streams := h.streams.unsubscribe slot } slot :=
      Untouched.same rfl rfl rfl rfl rfl rfl rfl rfl rfl rfl
    refine hstreams.trans (untouched_sockets (SSERegistry.capacity_unsubscribe ..) fun s hne => ?_)
    rw [SSERegistry.slots_unsubscribe]
    simp [hne]
  exact (hgone.trans (untouched_clearSlot _)).resets.tell (messagesFor_disconnectNotice h slot)

/-- A new tenant owes nothing, and has nothing to its account. -/
theorem accounts_fresh {extra : List Sent} (hsent : h'.sent = h.sent ++ extra)
    (hnone : messagesFor slot extra = []) (hcharged : h'.wsInSent slot = 0) :
    Accounts h' slot (Reader.fresh h.sent.length) [] := by
  have hplaced : (Reader.fresh h.sent.length).placed h' slot = [] := by
    unfold Reader.placed
    rw [hsent, show (Reader.fresh h.sent.length).base = h.sent.length from rfl, List.drop_left]
    exact hnone
  refine ⟨?_, ?_, fun m hm => (nomatch hm), Nat.zero_le _, ?_, fun e he => (nomatch he), ?_,
    fun t ht => (nomatch ht), rfl, fun t ht => (nomatch ht), rfl⟩
  · rw [hsent, List.length_append]
    exact Nat.le_add_right _ _
  · rw [hplaced]
    rfl
  · rw [hplaced]
    rfl
  · rw [hplaced, hcharged]
    rfl

theorem Resets.core {f : Slot → Slot} (hr : Resets h h' slot) (ha : Acts h h' slot f)
    (hc : Core h readers owed) {g : Reader}
    (hg : h'.execHeld slot = true → g = Reader.fresh h.sent.length) :
    Core h' (Function.update readers slot g) (Function.update owed slot []) := by
  obtain ⟨extra, hsent, hnone⟩ := hr.sent
  refine ⟨hc.shaped.acts ha, fun s hin => ?_, fun s hheld => ?_⟩
  · -- the window of a new tenant is whole
    have hwindow := hc.window s ((ha.inTable s).symm.trans hin)
    rw [hr.inSent, hr.inAcked]
    split
    · rcases Decidable.em (s = slot) with rfl | hne
      · rw [Function.update_self, Function.update_self]
        exact ⟨Int.le_refl 0, Int.le_refl 0, by decide⟩
      · rw [Function.update_of_ne hne, Function.update_of_ne hne]
        exact hwindow
    · exact hwindow
  · rcases Decidable.em (s = slot) with rfl | hne
    · rw [Function.update_self, Function.update_self, hg hheld]
      refine accounts_fresh hsent (hnone s) ?_
      rw [hr.inSent, if_pos ((ha.inTable s).symm.trans (inTable_of_execHeld hheld)), Function.update_self]
    · rw [Function.update_of_ne hne, Function.update_of_ne hne]
      refine (hc.accounts s (hr.held s hne hheld)).keep ⟨extra, hsent, hnone s⟩ ?_ (Int.le_of_eq ?_)
      · rw [hr.inSent]
        split
        · exact Function.update_of_ne hne _ _
        · rfl
      · rw [hr.inAcked]
        split
        · exact (Function.update_of_ne hne _ _).symm
        · rfl

/-- A begin or a disconnect of the slot. -/
theorem Sound.resets {f : Slot → Slot} (hs : Sound ⟨h, readers⟩) (ha : Acts h h' slot f)
    (hr : Resets h h' slot) {g : Reader}
    (hg : h'.execHeld slot = true → g = Reader.fresh h.sent.length) :
    Sound ⟨h', Function.update readers slot g⟩ := by
  obtain ⟨owed, hc, hparked⟩ := hs.core
  have hcount : h.wsParkedCount = parkedSlots h.slots h.wsParked := hs.count
  refine ⟨⟨_, hr.core ha hc hg, fun s hheld => ?_⟩, ?_⟩
  · show h'.wsParked s = _
    rcases Decidable.em (s = slot) with rfl | hne
    · rw [hr.parked, if_pos ((ha.inTable s).symm.trans (inTable_of_execHeld hheld)), Function.update_self,
        Function.update_self]
      rfl
    · rw [Function.update_of_ne hne, ← hparked s (hr.held s hne hheld), hr.parked]
      split
      · exact Function.update_of_ne hne _ _
      · rfl
  · show h'.wsParkedCount = parkedSlots h'.slots h'.wsParked
    rw [hr.count, hr.parked, ha.slots, hcount]
    cases hin : h.inTable slot with
    | false => rw [if_neg fun hboth => (nomatch hboth.1), if_neg Bool.false_ne_true, Int.sub_zero]
    | true =>
      have hrange : 0 ≤ slot ∧ slot < h.slots := by
        simpa [WSGIHandler.inTable] using hin
      rw [if_pos rfl, parkedSlots_update hrange, List.length_nil, if_neg (Nat.lt_irrefl 0), Int.add_zero]
      simp only [true_and]

/-! ### Runs -/

theorem Sound.step {w w' : Inbound} {l : Label} (hs : w.Sound) (h : next w l = some w') : w'.Sound := by
  obtain ⟨handler, readers⟩ := w
  obtain ⟨owed, hc, hparked⟩ := hs.core
  cases l with
  | begin slot lane gen =>
    obtain rfl := Option.some.inj h
    have hbegin := ssePeerFrame_reservedStreamUrl (show (0x42 : UInt8) ≠ BytesConstant.SLASH by decide) handler slot lane
      gen [] 0 []
    rw [hbegin]
    exact hs.resets (acts_beginSocket hc.shaped _ _ _) (resets_beginSocket ..) fun _ => rfl
  | take slot opcode payload taken =>
    simp only [next] at h
    split at h
    · cases h
    · next hroom =>
      obtain rfl := Option.some.inj h
      refine hs.wsMessageTake (m := (opcode, payload)) (fun hheld => ?_) taken
      rw [hheld, Bool.true_and, decide_eq_true_eq] at hroom
      exact Nat.not_lt.mp hroom
  | ack slot lane gen total answers =>
    simp only [next] at h
    split at h
    · next harrive =>
      obtain rfl := Option.some.inj h
      have hframe := ssePeerFrame_reservedStreamUrl (show (0x72 : UInt8) ≠ BytesConstant.SLASH by decide) handler slot
        lane gen (i64Le total) 0 answers
      rw [hframe]
      exact hs.consumed harrive answers
    · cases h
  | resumes answers =>
    obtain rfl := Option.some.inj h
    exact hs.takeWsResumes answers
  | read slot =>
    simp only [next] at h
    split at h
    · cases h
    · next m hm =>
      obtain rfl := Option.some.inj h
      exact ⟨⟨owed, hc.reader fun _ ha => ha.onWsMessage hm, hparked⟩, hs.count⟩
  | receive slot =>
    simp only [next] at h
    split at h
    · cases h
    · next m cost rest hinbox =>
      obtain rfl := Option.some.inj h
      exact ⟨⟨owed, hc.reader fun _ ha => ha.receive hinbox, hparked⟩, hs.count⟩
  | disconnected slot =>
    obtain rfl := Option.some.inj h
    have hacts := acts_sseSlotDisconnected hc.shaped (slot : Int)
    refine hs.resets hacts (resets_sseSlotDisconnected ..) fun hheld => ?_
    -- nothing holds the slot any more
    have hshaped := hc.shaped.acts hacts
    unfold execHeld at hheld
    rw [hshaped.isSlotStreaming_sockets] at hheld
    simp only [Bool.and_eq_true] at hheld
    obtain ⟨⟨⟨-, hin, hstreaming⟩, -⟩, -⟩ := hheld
    rw [hacts.self ((hacts.inTable _).symm.trans hin)] at hstreaming
    cases hstreaming

theorem sound_initial (slots : Nat) (replayFrames : Int) (sharedId asgiNotify abortPool : Bool)
    (poolFd : Int → Bool) :
    (initial slots replayFrames sharedId asgiNotify abortPool poolFd).Sound := by
  have hshaped : (initial slots replayFrames sharedId asgiNotify abortPool poolFd).h.Shaped := ⟨rfl, rfl⟩
  have hwindow : (0 : Int) - 0 ≤ WS_IN_WINDOW := by decide
  have hidle : ∀ s, (initial slots replayFrames sharedId asgiNotify abortPool poolFd).h.execHeld s ≠ true := by
    intro s hheld
    unfold execHeld at hheld
    rw [hshaped.isSlotStreaming_sockets] at hheld
    simp only [Bool.and_eq_true] at hheld
    exact nomatch hheld.1.1.2.2
  refine ⟨⟨fun _ => [], ⟨hshaped, fun s _ => ⟨Int.le_refl 0, Int.le_refl 0, hwindow⟩,
    fun s hheld => absurd hheld (hidle s)⟩, fun s hheld => absurd hheld (hidle s)⟩, ?_⟩
  have hnone : ((slotRange slots).countP fun s => 0 < ((fun _ => [] : Int → Bytes) s).length) = 0 :=
    List.countP_eq_zero.mpr fun _ _ => Bool.false_ne_true
  show (0 : Int) = parkedSlots slots fun _ => []
  unfold parkedSlots
  rw [hnone]
  rfl

/-- What a faithful inbound path is, in one state. -/
structure Faithful (w : Inbound) : Prop where
  /-- What is placed is the first of what was taken, and what is parked is the rest. -/
  order : ∀ slot, w.h.execHeld slot = true → ∃ rest,
    (w.readers slot).taken = (w.readers slot).placed w.h slot ++ rest ∧ w.h.wsParked slot = records rest
  /-- So it is received, none lost and none twice. -/
  received : ∀ slot, w.h.execHeld slot = true →
    (w.readers slot).received ++ (w.readers slot).inbox.map Prod.fst ++
      ((w.readers slot).placed w.h slot).drop (w.readers slot).read = (w.readers slot).placed w.h slot
  window : ∀ slot, w.h.inTable slot = true → 0 ≤ w.h.wsInAcked slot ∧
    w.h.wsInAcked slot ≤ w.h.wsInSent slot ∧ w.h.wsInSent slot - w.h.wsInAcked slot ≤ WS_IN_WINDOW
  count : w.h.wsParkedCount = parkedSlots w.h.slots w.h.wsParked
  /-- Everything consumed and the last acknowledgement heard, the window is whole again. -/
  whole : ∀ slot, w.h.execHeld slot = true → (w.readers slot).received = (w.readers slot).placed w.h slot →
    (∀ total, (w.readers slot).acks.getLast? = some total → total ∈ (w.readers slot).arrived) →
    w.h.wsInSent slot = w.h.wsInAcked slot

theorem Sound.keeps_order {w : Inbound} (hs : w.Sound) : w.Faithful := by
  obtain ⟨owed, hc, hparked⟩ := hs.core
  refine ⟨fun slot hheld => ⟨owed slot, (hc.accounts slot hheld).taken, hparked slot hheld⟩,
    fun slot hheld => ?_, hc.window, hs.count, fun slot hheld hall hlast => ?_⟩
  · rw [(hc.accounts slot hheld).order, List.take_append_drop]
  · have ha := hc.accounts slot hheld
    have hwindow := hc.window slot (inTable_of_execHeld hheld)
    have horder := ha.order
    -- nothing is in the inbox or on the channel
    have hlen := congrArg List.length horder
    rw [hall, List.length_append, List.length_map, List.length_take] at hlen
    have hread : ((w.readers slot).placed w.h slot).length ≤ (w.readers slot).read := by omega
    have hinbox : (w.readers slot).inbox = [] := List.length_eq_zero_iff.mp (by omega)
    have hcharged := ha.charged
    rw [hinbox, List.drop_eq_nil_of_le hread] at hcharged
    have hconsumed : (w.readers slot).consumed = w.h.wsInSent slot := by
      rw [← hcharged]
      exact ((Int.add_zero _).trans (Int.add_zero _)).symm
    have hheard : (w.readers slot).consumed ≤ w.h.wsInAcked slot := by
      have hl := ha.last
      cases hacks : (w.readers slot).acks.getLast? with
      | none =>
        rw [hacks] at hl
        rw [← hl]
        exact hwindow.1
      | some total =>
        rw [hacks] at hl
        rw [← hl]
        exact ha.arrived total (hlast total hacks)
    omega

/-- Every state of the run. -/
def AlwaysFaithful {w : Inbound} (x : (system w).Execution) : Prop :=
  ∀ k ≤ x.labels.length, (x.state k).Faithful

/-- **What the loop takes from a socket reaches its application in order, none lost and none twice**, and
its window comes back whole. -/
theorem faithful (slots : Nat) (replayFrames : Int) (sharedId asgiNotify abortPool : Bool)
    (poolFd : Int → Bool)
    (x : (system (initial slots replayFrames sharedId asgiNotify abortPool poolFd)).Execution) :
    AlwaysFaithful x := by
  have hsound := x.invariant (sound_initial slots replayFrames sharedId asgiNotify abortPool poolFd)
    fun _ _ _ hw hnext => hw.step hnext
  intro k hk
  exact (hsound k hk).keeps_order

-- A begin makes the socket an executor's, and the application hears what is taken.
example : (((system (initial 1 0 false true false fun _ => false)).run
    (initial 1 0 false true false fun _ => false)
    [.begin 0 0 7, .take 0 1 [104] true, .take 0 1 [105] false, .read 0, .receive 0, .ack 0 0 7 11 [true]]).map
      fun w => (w.h.execHeld 0, (w.readers 0).received, (w.readers 0).placed w.h 0, w.h.wsInAcked 0)) =
    some (true, [(1, [104])], [(1, [104]), (1, [105])], 11) := by
  rfl

end

end Inbound

end MojoHttp
