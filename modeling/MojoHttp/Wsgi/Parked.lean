import MojoHttp.Lib.LittleEndian
import MojoHttp.Wsgi.Slots

/-!
# Messages parked for their channel (`handler.mojo`)

A slot's parked queue is one string of records, replayed through the same attempt at delivery that a
message just read gets.

* **`WSGIHandler.drainRecords_records`** — a replay reads back the messages that were parked.
* **`WSGIHandler.wsForward_held`**, **`WSGIHandler.aside_wsForward`** — what one attempt does to the accounts of
  a socket that an executor holds, and that one for any other slot does nothing to any.
-/

namespace MojoHttp

/-- An inbound message: its opcode and payload. -/
abbrev Message := UInt8 × Bytes

/-- The records of the messages, first in first out. -/
def records (messages : List Message) : Bytes :=
  messages.flatMap fun m => WSGIHandler.parkedRecord m.1 m.2

/-- What a channel of an executor has room for. -/
def Message.Short (m : Message) : Prop := m.2.length ≤ WS_DATAGRAM_MAX - WS_TAG_HEADER

namespace WSGIHandler

/-! ## Records -/

theorem parkedRecord_eq (opcode : UInt8) (payload : Bytes) :
    parkedRecord opcode payload = opcode :: (LittleEndian.bytes 4 payload.length ++ payload) := by
  have hbyte : ∀ n shift : Nat, n >>> shift &&& 0xFF = n / 2 ^ shift % 256 := by
    intro n shift
    rw [Nat.shiftRight_eq_div_pow]
    exact Nat.and_two_pow_sub_one_eq_mod _ 8
  unfold parkedRecord
  simp only [List.map_cons, List.map_nil, hbyte, LittleEndian.bytes, Nat.div_div_eq_div_mul]
  norm_num

theorem length_parkedRecord (opcode : UInt8) (payload : Bytes) :
    (parkedRecord opcode payload).length = 5 + payload.length := by
  rw [parkedRecord_eq, List.length_cons, List.length_append, LittleEndian.length_bytes]
  omega

/-- The length at the front of a record. -/
theorem recordLength_append {payload : Bytes} (hfits : payload.length < 256 ^ 4) (opcode : UInt8)
    (rest : Bytes) : recordLength (parkedRecord opcode payload ++ rest) = payload.length := by
  have hvalue := LittleEndian.value_bytes hfits
  rw [parkedRecord_eq]
  unfold recordLength
  simp only [LittleEndian.bytes, LittleEndian.value, List.cons_append, List.nil_append,
    List.getD_cons_succ, List.getD_cons_zero, Nat.shiftLeft_eq] at hvalue ⊢
  omega

/-- The replay, message by message: what is left at the first refusal. -/
def forwardAll (slot : Int) : WSGIHandler → List Message → List Bool → WSGIHandler × List Message
  | h, [], _ => (h, [])
  | h, m :: messages, answers =>
    let forwarded := h.wsForward slot m.1 m.2 (answers.headD false)
    if forwarded.2 then forwardAll slot forwarded.1 messages answers.tail
    else (forwarded.1, m :: messages)

/-- **A replay reads back what was parked.** -/
theorem drainRecords_records {slot : Int} {messages : List Message} {fuel : Nat}
    (hshort : ∀ m ∈ messages, m.2.length < 256 ^ 4) (hfuel : (records messages).length ≤ fuel)
    (h : WSGIHandler) (answers : List Bool) :
    drainRecords slot fuel h (records messages) answers =
      ((forwardAll slot h messages answers).1, records (forwardAll slot h messages answers).2) := by
  induction messages generalizing fuel h answers with
  | nil =>
    cases fuel with
    | zero => rfl
    | succ fuel => rfl
  | cons m messages ih =>
    have hrecords : records (m :: messages) = parkedRecord m.1 m.2 ++ records messages := rfl
    have hlen := length_parkedRecord m.1 m.2
    rw [hrecords, List.length_append, hlen] at hfuel
    obtain ⟨fuel, rfl⟩ : ∃ n, fuel = n + 1 := ⟨fuel - 1, by omega⟩
    have hn : recordLength (records (m :: messages)) = m.2.length := by
      rw [hrecords]
      exact recordLength_append (hshort m List.mem_cons_self) m.1 _
    have htotal : (records (m :: messages)).length = 5 + m.2.length + (records messages).length := by
      rw [hrecords, List.length_append, hlen]
    have hopcode : (records (m :: messages)).getD 0 0 = m.1 := by
      rw [hrecords, parkedRecord_eq]
      rfl
    have hpayload : slice (records (m :: messages)) 5 (5 + m.2.length) = m.2 := by
      rw [hrecords, parkedRecord_eq]
      simp [slice, LittleEndian.bytes]
    have hdrop : (records (m :: messages)).drop (5 + m.2.length) = records messages := by
      rw [hrecords]
      exact List.drop_left' hlen
    have hrest := ih (fun m' hm => hshort m' (List.mem_cons_of_mem _ hm)) (by omega : _ ≤ fuel)
    rw [drainRecords, if_neg (by omega)]
    dsimp only
    rw [hn, if_neg (by omega), hpayload, hopcode, forwardAll]
    split
    · rw [hdrop, hrest]
    · rfl

/-! ## One attempt -/

/-- The messages among what the handler sent that are for the executor of the slot. -/
def messagesFor (slot : Int) (sent : List Sent) : List Message :=
  sent.filterMap fun
    | .wsMessage s opcode payload => if s = slot then some (opcode, payload) else none
    | _ => none

theorem messagesFor_append (slot : Int) (as bs : List Sent) :
    messagesFor slot (as ++ bs) = messagesFor slot as ++ messagesFor slot bs := List.filterMap_append

/-- A socket that an executor holds, and of which no message was too big. -/
def execHeld (h : WSGIHandler) (slot : Int) : Bool :=
  h.inTable slot && h.asgiNotify && h.sockets.isSlotStreaming slot && !h.poolHeld slot &&
    !h.wsRefused slot

/-- No account of any slot changes, and no executor is sent a message. -/
structure Aside (h h' : WSGIHandler) : Prop where
  slots : h'.slots = h.slots
  streams : h'.streams.capacity = h.streams.capacity
  sockets : h'.sockets.capacity = h.sockets.capacity
  parked : h'.wsParked = h.wsParked
  count : h'.wsParkedCount = h.wsParkedCount
  inSent : h'.wsInSent = h.wsInSent
  inAcked : h'.wsInAcked = h.wsInAcked
  gen : h'.streamGen = h.streamGen
  sent : ∃ extra, h'.sent = h.sent ++ extra ∧ ∀ s, messagesFor s extra = []
  held : ∀ s, h'.execHeld s = true → h.execHeld s = true

variable {h h' h'' : WSGIHandler} {slot : Int} {payload : Bytes}

theorem Aside.refl (h : WSGIHandler) : Aside h h :=
  ⟨rfl, rfl, rfl, rfl, rfl, rfl, rfl, rfl, ⟨[], (List.append_nil _).symm, fun _ => rfl⟩, fun _ => id⟩

theorem Aside.trans (ha : Aside h h') (hb : Aside h' h'') : Aside h h'' where
  slots := hb.slots.trans ha.slots
  streams := hb.streams.trans ha.streams
  sockets := hb.sockets.trans ha.sockets
  parked := hb.parked.trans ha.parked
  count := hb.count.trans ha.count
  inSent := hb.inSent.trans ha.inSent
  inAcked := hb.inAcked.trans ha.inAcked
  gen := hb.gen.trans ha.gen
  sent := by
    obtain ⟨as, has, hnone⟩ := ha.sent
    obtain ⟨bs, hbs, hnone'⟩ := hb.sent
    refine ⟨as ++ bs, by rw [hbs, has, List.append_assoc], fun s => ?_⟩
    rw [messagesFor_append, hnone, hnone']
    rfl
  held s hs := ha.held s (hb.held s hs)

theorem Aside.shaped (ha : Aside h h') (hs : h.Shaped) : h'.Shaped :=
  ⟨by rw [ha.streams, ha.slots, hs.streams], by rw [ha.sockets, ha.slots, hs.sockets]⟩

theorem Aside.inTable (ha : Aside h h') (s : Int) : h'.inTable s = h.inTable s := by
  unfold WSGIHandler.inTable
  rw [ha.slots]

theorem aside_emit {sent : Sent} (hnone : ∀ s, messagesFor s [sent] = []) : Aside h (h.emit sent) :=
  ⟨rfl, rfl, rfl, rfl, rfl, rfl, rfl, rfl, ⟨[sent], rfl, hnone⟩, fun _ => id⟩

theorem isSlotStreaming_queueFrame (r : SSERegistry) (slot eventId : Int) (frame : Bytes) (s : Int) :
    (r.queueFrame slot eventId frame).1.isSlotStreaming s = r.isSlotStreaming s := by
  unfold SSERegistry.isSlotStreaming
  rw [SSERegistry.inRange_queueFrame, SSERegistry.slots_queueFrame]
  split
  · rfl
  · split
    · next hyes =>
      have heq : s = slot := eq_of_beq (Bool.and_eq_true_iff.mp hyes).2
      rw [heq]
      rfl
    · rfl

theorem isSlotStreaming_markReady (r : SSERegistry) (slot s : Int) :
    (r.markReady slot).isSlotStreaming s = r.isSlotStreaming s := by
  unfold SSERegistry.isSlotStreaming SSERegistry.inRange
  rw [SSERegistry.capacity_markReady, SSERegistry.slots_markReady]

theorem aside_endOnceDrained (h : WSGIHandler) (slot : Int) : Aside h (h.endOnceDrained slot) := by
  unfold endOnceDrained
  split
  · refine ⟨rfl, SSERegistry.capacity_markReady .., SSERegistry.capacity_markReady .., rfl, rfl, rfl, rfl,
      rfl, ⟨[], (List.append_nil _).symm, fun _ => rfl⟩, fun s hs => ?_⟩
    have hheld : (h.inTable s && h.asgiNotify && (h.sockets.markReady slot).isSlotStreaming s &&
      !h.poolHeld s && !h.wsRefused s) = true := hs
    rw [isSlotStreaming_markReady] at hheld
    exact hheld
  · exact Aside.refl h

theorem Aside.closes (ha : Aside h h') (held : Bool) (slots : List Int) :
    Aside h (if held then { h' with wsCloses := slots } else h') := by
  split
  · exact ⟨ha.slots, ha.streams, ha.sockets, ha.parked, ha.count, ha.inSent, ha.inAcked, ha.gen, ha.sent,
      ha.held⟩
  · exact ha

/-- A refused message leaves the accounts alone. -/
theorem aside_wsRefuseTooBig (h : WSGIHandler) (slot : Int) : Aside h (h.wsRefuseTooBig slot) := by
  have htables : Aside h (if h.inTable slot then
      { h with
        wsRefused := Function.update h.wsRefused slot true
        wsClosedWith := Function.update h.wsClosedWith slot (WS_CLOSE_TOO_BIG : Int) }
      else h) := by
    split
    · refine ⟨rfl, rfl, rfl, rfl, rfl, rfl, rfl, rfl, ⟨[], (List.append_nil _).symm, fun _ => rfl⟩,
        fun s hs => ?_⟩
      have hheld : (h.inTable s && h.asgiNotify && h.sockets.isSlotStreaming s && !h.poolHeld s &&
        !Function.update h.wsRefused slot true s) = true := hs
      rw [Bool.and_eq_true] at hheld
      unfold execHeld
      rw [Bool.and_eq_true]
      refine ⟨hheld.1, ?_⟩
      rcases Decidable.em (s = slot) with rfl | hne
      · rw [Function.update_self] at hheld
        exact nomatch hheld.2
      · rw [Function.update_of_ne hne] at hheld
        exact hheld.2
    · exact Aside.refl h
  unfold wsRefuseTooBig
  dsimp only
  generalize (if h.inTable slot = true then _ else h : WSGIHandler) = h₁ at htables
  split
  · exact htables
  · have hqueued : Aside h₁ { h₁ with
        sockets := (h₁.sockets.queueFrame slot NO_EVENT_ID (closeFrame WS_CLOSE_TOO_BIG)).1 } := by
      refine ⟨rfl, rfl, ?_, rfl, rfl, rfl, rfl, rfl, ⟨[], (List.append_nil _).symm, fun _ => rfl⟩,
        fun s hs => ?_⟩
      · exact (keeps_queueFrame h₁.sockets slot NO_EVENT_ID _).capacity
      · have hheld : (h₁.inTable s && h₁.asgiNotify &&
          (h₁.sockets.queueFrame slot NO_EVENT_ID (closeFrame WS_CLOSE_TOO_BIG)).1.isSlotStreaming s &&
            !h₁.poolHeld s && !h₁.wsRefused s) = true := hs
        rw [isSlotStreaming_queueFrame] at hheld
        exact hheld
    have hended : ∀ b : Bool, Aside h (if b = true then
        ({ h₁ with sockets := (h₁.sockets.queueFrame slot NO_EVENT_ID
          (closeFrame WS_CLOSE_TOO_BIG)).1 } : WSGIHandler).endOnceDrained slot
        else ({ h₁ with sockets := (h₁.sockets.queueFrame slot NO_EVENT_ID
          (closeFrame WS_CLOSE_TOO_BIG)).1 } : WSGIHandler).endSocket slot) := by
      intro b
      have hend := (htables.trans hqueued).trans (aside_endOnceDrained _ slot)
      cases b with
      | true => exact hend
      | false => exact hend
    have hlast := hended (h₁.sockets.queueFrame slot NO_EVENT_ID (closeFrame WS_CLOSE_TOO_BIG)).2
    exact hlast.closes _ _

/-- The message is placed on the executor's channel, and charged to the window. -/
def place (h : WSGIHandler) (slot : Int) (opcode : UInt8) (payload : Bytes) : WSGIHandler :=
  { h.emit (.wsMessage slot opcode payload) with
    wsInSent := Function.update h.wsInSent slot (h.wsInSent slot + wsInCost payload.length) }

/-- An attempt for a socket that an executor holds: nothing happens, or the message is placed, for which
the window has room. -/
theorem wsForward_held (hheld : h.execHeld slot = true) (opcode : UInt8)
    (hshort : payload.length ≤ WS_DATAGRAM_MAX - WS_TAG_HEADER) (taken : Bool) :
    h.wsForward slot opcode payload taken = (h, false) ∨
      h.wsForward slot opcode payload taken = (h.place slot opcode payload, true) ∧
        h.wsInSent slot - h.wsInAcked slot + wsInCost payload.length ≤ WS_IN_WINDOW := by
  unfold execHeld at hheld
  rw [Bool.and_eq_true, Bool.and_eq_true, Bool.and_eq_true, Bool.and_eq_true, Bool.not_eq_true',
    Bool.not_eq_true'] at hheld
  obtain ⟨⟨⟨⟨hin, hasgi⟩, hstreaming⟩, hpool⟩, hrefused⟩ := hheld
  have hroom : h.wsDatagramRoom slot = (WS_DATAGRAM_MAX : Int) - WS_TAG_HEADER := by
    unfold wsDatagramRoom
    rw [hpool, if_neg (by decide), hasgi, hstreaming]
    rfl
  have hfits : ¬ (payload.length : Int) > (WS_DATAGRAM_MAX : Int) - WS_TAG_HEADER := by
    have hmax : WS_DATAGRAM_MAX = 65546 := rfl
    have htag : WS_TAG_HEADER = 10 := rfl
    rw [hmax, htag] at hshort ⊢
    omega
  unfold wsForward
  dsimp only
  rw [hin, hrefused, hroom, hpool, hasgi, hstreaming, decide_eq_false hfits]
  simp only [Bool.and_false, Bool.false_eq_true, if_false, Bool.and_self, if_true, Bool.true_and]
  split
  · exact Or.inl rfl
  · next hwindow =>
    split
    · exact Or.inl rfl
    · right
      rw [show (h.emit (.wsMessage slot opcode payload)).inTable slot = true from hin, if_pos rfl]
      refine ⟨rfl, ?_⟩
      rw [decide_eq_true_eq] at hwindow
      omega

/-- An attempt for any other slot leaves the accounts alone. -/
theorem aside_wsForward (hs : h.Shaped) (opcode : UInt8) (taken : Bool)
    (hnot : ¬ (h.execHeld slot = true ∧ payload.length ≤ WS_DATAGRAM_MAX - WS_TAG_HEADER)) :
    Aside h (h.wsForward slot opcode payload taken).1 := by
  unfold wsForward
  dsimp only
  generalize (if h.holdLane slot > 0 then h.holdLane slot else 0) = lane
  split
  · exact Aside.refl h
  · next hrefused =>
    split
    · exact aside_wsRefuseTooBig h slot
    · next hbig =>
      split
      · split
        · split
          · exact Aside.refl h
          · exact aside_emit fun _ => rfl
        · exact Aside.refl h
      · next hpool =>
        split
        · next hexec =>
          -- such a socket is an executor's
          have ⟨hasgi, hstreaming⟩ := Bool.and_eq_true_iff.mp hexec
          have hpool := Bool.eq_false_iff.mpr hpool
          have hin : h.inTable slot = true := by
            rw [hs.isSlotStreaming_sockets, Bool.and_eq_true] at hstreaming
            exact hstreaming.1
          have hrefused : h.wsRefused slot = false := by
            rw [hin, Bool.true_and] at hrefused
            exact Bool.eq_false_iff.mpr hrefused
          exfalso
          apply hnot
          refine ⟨?_, ?_⟩
          · unfold execHeld
            rw [hin, hasgi, hstreaming, hpool, hrefused]
            rfl
          · have hroom : h.wsDatagramRoom slot = (WS_DATAGRAM_MAX : Int) - WS_TAG_HEADER := by
              unfold wsDatagramRoom
              rw [hpool, if_neg (by decide), hexec]
              rfl
            have hmax : WS_DATAGRAM_MAX = 65546 := rfl
            have htag : WS_TAG_HEADER = 10 := rfl
            rw [hroom, Bool.and_eq_true, decide_eq_true_eq, decide_eq_true_eq, hmax, htag] at hbig
            rw [hmax, htag]
            omega
        · split
          · exact Aside.refl h
          · exact aside_emit fun _ => rfl

end WSGIHandler

end MojoHttp
