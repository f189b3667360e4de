import MojoHttp.Offload.Wire
import MojoHttp.Wsgi.ChannelNames

/-!
# The datagrams of the channels (`offload.mojo`, `handler.mojo`, `shim_source.mojo`)

A submit lane is read by pool threads or by one executor, the completion channel by the loop. A job and
a completion have no tag and are told apart by their length; the others open with one. What their
writers put on a channel, and what its reader makes of it:

* **`Wire.recvDatagram_written`** — on the lane of a pool;
* **`Wire.onSubmit_written`** — on the lane of an executor;
* **`Wire.drainChannel_written`** — on the completion channel, over a whole drain.
-/

namespace MojoHttp.Wire

open LittleEndian

def TAG_DISCONNECT : UInt8 := 1
def TAG_WS_MESSAGE : UInt8 := 2
def TAG_BUS_FRAME : UInt8 := 3
def TAG_STREAM_ABORT : UInt8 := 5

/-- `_ABORT_BYTES` -/
def ABORT_BYTES : Nat := 17

def SUBMIT_BATCH_MAX : Nat := 64
def OFFLOAD_MAX_INFLIGHT : Nat := 256

/-- The slots of a loop's table. -/
def IsSlot (slot : Int) : Prop := 0 ≤ slot ∧ slot < 2 ^ 63

/-! ## Writers -/

/-- The datagram of `submit_batch`, none for no slots. -/
def submitBatch (slots : List Int) : Option Bytes :=
  match slots with
  | [] => none
  | [slot] => some (encodeJob slot)
  | slots => some (encodeJobBatch slots)

/-- The datagram of `complete_many`, none for no slots. -/
def completeMany (slots : List Int) : Option Bytes :=
  if slots.length == 0 then none else some (encodeCompletions slots)

def abortStream (slot gen : Int) : Bytes := appendI64Le (appendI64Le [TAG_STREAM_ABORT] slot) gen

def wsMessageRoom (channel : Bytes) : Int := (WS_DATAGRAM_MAX : Int) - WS_HEADER - channel.length

/-- `send_ws_message`: `[2][slot i64 LE][opcode][chan_len u16 LE][channel][payload]`, none if refused. -/
def sendWsMessage (slot : Int) (opcode : UInt8) (channel payload : Bytes) : Option Bytes :=
  if (payload.length : Int) > wsMessageRoom channel then none
  else
    some (appendU16Le (appendI64Le [TAG_WS_MESSAGE] slot ++ [opcode]) channel.length ++ channel ++ payload)

/-- `_send_ws_message_tag`: `[2][slot i64 LE][opcode][payload]`, none if refused. -/
def sendWsMessageTag (slot : Int) (opcode : UInt8) (payload : Bytes) : Option Bytes :=
  if WS_TAG_HEADER + payload.length > WS_DATAGRAM_MAX then none
  else some (appendI64Le [TAG_WS_MESSAGE] slot ++ [opcode] ++ payload)

/-- `_send_disconnect_tag`: `[1][slot i64 LE]`, and a close code if there is one. -/
def sendDisconnectTag (slot code : Int) : Bytes :=
  let msg := appendI64Le [TAG_DISCONNECT] slot
  if code > 0 then appendU16Le msg code.toNat else msg

/-- `_send_bus_frame_tag`: `[3][event_id i64 LE][url_len u16 LE][url][frame]`. -/
def sendBusFrameTag (eventId : Int) (url frame : Bytes) : Bytes :=
  appendU16Le (appendI64Le [TAG_BUS_FRAME] eventId) url.length ++ url ++ frame

/-! ## The reader of a pool's lane -/

inductive JobKind where
  | request
  | wsMessage
  | stop
  | none
  deriving Repr, DecidableEq

/-- What a thread took off its lane; a message is a view into the buffer. -/
structure PoolJob where
  kind : JobKind
  slot : Int
  opcode : UInt8
  chanStart : Nat
  chanLen : Nat
  payloadStart : Nat
  payloadLen : Nat
  deriving Repr, DecidableEq

/-- `_none_job` -/
def noneJob : PoolJob := ⟨.none, 0, 0, 0, 0, 0, 0⟩

def stopJob : PoolJob := ⟨.stop, POISON, 0, 0, 0, 0, 0⟩

/-- `_recv_datagram`, of the bytes received. -/
def recvDatagram (buf : Bytes) : PoolJob :=
  let n := buf.length
  if n == JOB_BYTES then
    let slot := decodeJob buf
    if slot == POISON then stopJob
    else if slot == POKE then noneJob
    else ⟨.request, slot, 0, 0, 0, 0, 0⟩
  else if n ≥ WS_HEADER && buf.getD 0 0 == TAG_WS_MESSAGE then
    let wsSlot := readI64Le buf 1
    let chanLen := readU16Le buf 10
    let payloadStart := WS_HEADER + chanLen
    if payloadStart > n then noneJob
    else ⟨.wsMessage, wsSlot, buf.getD 9 0, WS_HEADER, chanLen, payloadStart, n - payloadStart⟩
  else if n ≥ 9 && buf.getD 0 0 == TAG_JOB_BATCH && (n - 1) % JOB_BYTES == 0 then
    -- a sender's bug, reported
    noneJob
  else if n == 0 then stopJob
  else noneJob

/-- What a thread does with its job. -/
inductive PoolAction where
  | serve (slot : Int)
  | message (slot : Int) (opcode : UInt8) (channel payload : Bytes)
  | stop
  /-- Look again. -/
  | again
  deriving Repr, DecidableEq

def PoolJob.action (job : PoolJob) (buf : Bytes) : PoolAction :=
  match job.kind with
  | .request => .serve job.slot
  | .wsMessage =>
    .message job.slot job.opcode ((buf.drop job.chanStart).take job.chanLen)
      ((buf.drop job.payloadStart).take job.payloadLen)
  | .stop => .stop
  | .none => .again

/-! ## The reader of an executor's lane -/

inductive SubmitEvent where
  | job (slot : Int)
  /-- `_exec_on_disconnect` -/
  | disconnect (slot : Int) (code : Nat)
  /-- `_exec_on_ws_message` -/
  | wsMessage (slot : Int) (opcode : UInt8) (payload : Bytes)
  /-- `_m0_dispatch`, of the name's bytes. -/
  | busFrame (eventId : Int) (url frame : Bytes)
  /-- A shape that is not known ends the lane. -/
  | closed
  deriving Repr, DecidableEq

/-- `_on_submit`, of the bytes received. -/
def onSubmit (data : Bytes) : List SubmitEvent :=
  if data.length == 8 then [.job (readI64Le data 0)]
  else if data.length ≥ 9 && data.getD 0 0 == TAG_JOB_BATCH && (data.length - 1) % 8 == 0 then
    (List.range ((data.length - 1) / 8)).map fun i => .job (readI64Le data (1 + 8 * i))
  else if (data.length == 9 || data.length == 11) && data.getD 0 0 == TAG_DISCONNECT then
    [.disconnect (readI64Le data 1) (if data.length == 11 then readU16Le data 9 else 0)]
  else if data.length ≥ WS_TAG_HEADER && data.getD 0 0 == TAG_WS_MESSAGE then
    [.wsMessage (readI64Le data 1) (data.getD 9 0) (data.drop WS_TAG_HEADER)]
  else if data.length ≥ 11 && data.getD 0 0 == TAG_BUS_FRAME then
    let ulen := readU16Le data 9
    [.busFrame (readI64Le data 1) ((data.drop 11).take ulen) (data.drop (11 + ulen))]
  else [.closed]

/-! ## The reader of the completion channel -/

/-- What a drain hands the loop: the finished slots, and the aborts as slot, generation, slot, ... -/
structure Drained where
  done : List Int
  aborts : List Int
  deriving Repr, DecidableEq

/-- One datagram of `_drain_channel_into`. -/
def Drained.take (d : Drained) (buf : Bytes) : Drained :=
  let n := buf.length
  if n == ABORT_BYTES && buf.getD 0 0 == TAG_STREAM_ABORT then
    { d with aborts := d.aborts ++ [readI64Le buf 1, readI64Le buf 9] }
  else if n % JOB_BYTES != 0 then d
  else
    let count := n / JOB_BYTES
    { d with
      done := d.done ++
        ((List.range count).map fun i => readI64Le buf (i * JOB_BYTES)).filter (· != POKE) }

/-- `_drain_channel_into`, of the datagrams that wait. -/
def drainChannel : List Bytes → Drained → Drained
  | [], d => d
  | datagram :: rest, d =>
    let buf := datagram.take (OFFLOAD_MAX_INFLIGHT * JOB_BYTES)
    if buf.length == 0 then d else drainChannel rest (d.take buf)

/-! ## What is on a channel -/

/-- A datagram on a pool's lane, and what it was written for. -/
inductive OnPoolLane : Bytes → PoolAction → Prop where
  | job {slot : Int} (hslot : IsSlot slot) : OnPoolLane (encodeJob slot) (.serve slot)
  | pill : OnPoolLane (encodeJob POISON) .stop
  | wake : OnPoolLane (encodeJob POKE) .again
  | message {slot : Int} {opcode : UInt8} {channel payload datagram : Bytes} (hslot : IsSlot slot)
      (hsent : sendWsMessage slot opcode channel payload = some datagram) :
      OnPoolLane datagram (.message slot opcode channel payload)

/-- The same of an executor's lane. A frame that is longer than the read is cut at its end. -/
inductive OnExecutorLane : Bytes → List SubmitEvent → Prop where
  | jobs {slots : List Int} {datagram : Bytes} (hslots : ∀ slot ∈ slots, IsSlot slot)
      (hmany : slots.length ≤ SUBMIT_BATCH_MAX) (hsent : submitBatch slots = some datagram) :
      OnExecutorLane datagram (slots.map .job)
  | pill : OnExecutorLane (encodeJob POISON) [.job POISON]
  | disconnect {slot code : Int} (hslot : IsSlot slot) (hcode : 0 ≤ code ∧ code < 65536) :
      OnExecutorLane (sendDisconnectTag slot code) [.disconnect slot code.toNat]
  | wsMessage {slot : Int} {opcode : UInt8} {payload datagram : Bytes} (hslot : IsSlot slot)
      (hsent : sendWsMessageTag slot opcode payload = some datagram) :
      OnExecutorLane datagram [.wsMessage slot opcode payload]
  | busFrame {eventId : Int} {url : Bytes} (hid : Holds 8 eventId) (hurl : url.length ≤ MAX_CHANNEL)
      (frame : Bytes) :
      OnExecutorLane (sendBusFrameTag eventId url frame)
        [.busFrame eventId url (frame.take (WS_DATAGRAM_MAX - (11 + url.length)))]

/-- The same of the completion channel. -/
inductive OnCompletions : Bytes → Drained → Prop where
  | complete {slot : Int} (hslot : IsSlot slot) : OnCompletions (encodeJob slot) ⟨[slot], []⟩
  | many {slots : List Int} {datagram : Bytes} (hslots : ∀ slot ∈ slots, IsSlot slot)
      (hmany : slots.length ≤ OFFLOAD_MAX_INFLIGHT) (hsent : completeMany slots = some datagram) :
      OnCompletions datagram ⟨slots, []⟩
  | wake : OnCompletions (encodeJob POKE) ⟨[], []⟩
  | abort {slot gen : Int} (hslot : IsSlot slot) (hgen : Holds 8 gen) :
      OnCompletions (abortStream slot gen) ⟨[], [slot, gen]⟩

/-! ## Words behind a tag -/

theorem IsSlot.holds {slot : Int} (hslot : IsSlot slot) : Holds 8 slot := by
  obtain ⟨hlow, hhigh⟩ := hslot
  refine ⟨?_, hhigh⟩
  show -2 ^ 63 ≤ slot
  omega

theorem IsSlot.ne_pill {slot : Int} (hslot : IsSlot slot) : slot ≠ POISON ∧ slot ≠ POKE := by
  obtain ⟨hlow, _⟩ := hslot
  unfold POISON POKE
  omega

section
variable {tag : UInt8} {v : Int}

theorem length_tagged (tag : UInt8) (v : Int) : (appendI64Le [tag] v).length = 9 := length_appendLe [tag] v

theorem getD_tagged (v : Int) (rest : Bytes) : (appendI64Le [tag] v ++ rest).getD 0 0 = tag := by
  unfold appendI64Le
  rw [appendLe_eq]
  rfl

theorem readI64Le_tagged (hv : Holds 8 v) (rest : Bytes) :
    readI64Le (appendI64Le [tag] v ++ rest) 1 = v := readLe_appendLe (by decide) hv [tag] rest

end

/-! ## The lane of a pool -/

theorem recvDatagram_job {slot : Int} (hslot : Holds 8 slot) :
    recvDatagram (encodeJob slot) =
      if slot == POISON then stopJob else if slot == POKE then noneJob
      else ⟨.request, slot, 0, 0, 0, 0, 0⟩ := by
  unfold recvDatagram
  rw [length_encodeJob, decodeJob_encodeJob hslot]
  rfl

theorem take_encodeJob (slot : Int) : (encodeJob slot).take WS_DATAGRAM_MAX = encodeJob slot := by
  refine List.take_of_length_le ?_
  rw [length_encodeJob]
  decide

theorem recvDatagram_message {slot : Int} {opcode : UInt8} {channel payload datagram : Bytes}
    (hslot : IsSlot slot) (hsent : sendWsMessage slot opcode channel payload = some datagram) :
    datagram.take WS_DATAGRAM_MAX = datagram ∧
      (recvDatagram datagram).action datagram = .message slot opcode channel payload := by
  unfold sendWsMessage wsMessageRoom at hsent
  split at hsent
  · cases hsent
  · next hroom =>
    have hdatagram := (Option.some.inj hsent).symm
    have hbefore : (appendI64Le [TAG_WS_MESSAGE] slot ++ [opcode]).length = 10 := by
      rw [List.length_append, length_tagged]
      rfl
    have hhead : (appendU16Le (appendI64Le [TAG_WS_MESSAGE] slot ++ [opcode]) channel.length).length =
        WS_HEADER := by
      rw [length_appendU16Le, hbefore]
      rfl
    have hlen : datagram.length = WS_HEADER + channel.length + payload.length := by
      rw [hdatagram, List.length_append, List.length_append, hhead]
    have hfits : datagram.length ≤ WS_DATAGRAM_MAX := by omega
    -- so the length of the channel fits its two bytes
    have hchannel : channel.length < 65536 := by
      unfold WS_DATAGRAM_MAX WS_HEADER at *
      omega
    have htag : datagram.getD 0 0 = TAG_WS_MESSAGE := by
      rw [hdatagram, appendU16Le_eq, List.append_assoc, List.append_assoc, List.append_assoc,
        getD_tagged]
    have hread : readI64Le datagram 1 = slot := by
      rw [hdatagram, appendU16Le_eq, List.append_assoc, List.append_assoc, List.append_assoc]
      exact readI64Le_tagged hslot.holds _
    have hopcode : datagram.getD 9 0 = opcode := by
      rw [hdatagram, appendU16Le_eq, List.append_assoc, List.append_assoc, List.append_assoc,
        List.getD_append_right _ _ _ _ (by rw [length_tagged]), length_tagged]
      rfl
    have hchanLen : readU16Le datagram 10 = channel.length := by
      have hback := readU16Le_appendU16Le hchannel (appendI64Le [TAG_WS_MESSAGE] slot ++ [opcode])
        (channel ++ payload)
      rwa [← List.append_assoc, ← hdatagram, hbefore] at hback
    have hname : (datagram.drop WS_HEADER).take channel.length = channel := by
      rw [hdatagram, List.append_assoc, List.drop_left' hhead, List.take_left]
    have hpayload : datagram.drop (WS_HEADER + channel.length) = payload := by
      rw [hdatagram]
      exact List.drop_left' (by rw [List.length_append, hhead])
    have hjob : recvDatagram datagram = ⟨.wsMessage, slot, opcode, WS_HEADER, channel.length,
        WS_HEADER + channel.length, payload.length⟩ := by
      have hnotJob : (datagram.length == JOB_BYTES) = false := by
        rw [beq_eq_false_iff_ne]
        unfold JOB_BYTES WS_HEADER at *
        omega
      have hmessage : (decide (datagram.length ≥ WS_HEADER) && datagram.getD 0 0 == TAG_WS_MESSAGE) =
          true := by
        rw [htag]
        simp [hlen, Nat.add_assoc]
      unfold recvDatagram
      dsimp only
      rw [hnotJob, if_neg Bool.false_ne_true, hmessage, if_pos rfl, hchanLen, if_neg (by omega), hread,
        hopcode, hlen, Nat.add_sub_cancel_left]
    refine ⟨List.take_of_length_le hfits, ?_⟩
    rw [hjob]
    show PoolAction.message slot opcode ((datagram.drop WS_HEADER).take channel.length)
      ((datagram.drop (WS_HEADER + channel.length)).take payload.length) = _
    rw [hname, hpayload, List.take_length]

/-- **A thread does what was meant by the datagram it takes.** -/
theorem recvDatagram_written {datagram : Bytes} {action : PoolAction} (h : OnPoolLane datagram action) :
    (recvDatagram (datagram.take WS_DATAGRAM_MAX)).action (datagram.take WS_DATAGRAM_MAX) = action := by
  cases h with
  | job hslot =>
    have ⟨hpill, hpoke⟩ := hslot.ne_pill
    rw [take_encodeJob, recvDatagram_job hslot.holds, if_neg (by simpa using hpill),
      if_neg (by simpa using hpoke)]
    rfl
  | pill =>
    rw [take_encodeJob, recvDatagram_job (by decide)]
    rfl
  | wake =>
    rw [take_encodeJob, recvDatagram_job (by decide)]
    rfl
  | message hslot hsent =>
    have ⟨htake, haction⟩ := recvDatagram_message hslot hsent
    rw [htake, haction]

/-! ## The lane of an executor -/

theorem onSubmit_job {slot : Int} (hslot : Holds 8 slot) : onSubmit (encodeJob slot) = [.job slot] := by
  have hlen : (encodeJob slot).length = 8 := length_encodeJob slot
  have hread : readI64Le (encodeJob slot) 0 = slot := decodeJob_encodeJob hslot
  unfold onSubmit
  rw [hlen, hread]
  rfl

theorem onSubmit_batch {slots : List Int} (hslots : ∀ slot ∈ slots, IsSlot slot) (hne : slots ≠ []) :
    onSubmit (encodeJobBatch slots) = slots.map .job := by
  have hbatch : encodeJobBatch slots = [TAG_JOB_BATCH] ++ slots.flatMap encodeJob :=
    foldl_appendI64Le slots [TAG_JOB_BATCH]
  have hpos : 0 < slots.length := List.length_pos_iff.mpr hne
  have hlen : (encodeJobBatch slots).length = 1 + 8 * slots.length := by
    rw [hbatch, List.length_append, length_flatMap_encodeJob]
    rfl
  have hreads := map_readI64Le (fun slot hmem => (hslots slot hmem).holds) [TAG_JOB_BATCH]
  rw [← hbatch] at hreads
  have hnotJob : (1 + 8 * slots.length == 8) = false := by
    rw [beq_eq_false_iff_ne]
    omega
  have hshape : (decide (1 + 8 * slots.length ≥ 9) && (encodeJobBatch slots).getD 0 0 == TAG_JOB_BATCH &&
      (1 + 8 * slots.length - 1) % 8 == 0) = true := by
    rw [hbatch, Nat.add_sub_cancel_left, Nat.mul_mod_right, decide_eq_true (by omega)]
    rfl
  unfold onSubmit
  rw [hlen, hnotJob, if_neg Bool.false_ne_true, hshape, if_pos rfl, Nat.add_sub_cancel_left,
    Nat.mul_div_cancel_left _ (by decide)]
  exact (List.map_map (f := fun i => readI64Le (encodeJobBatch slots) (1 + 8 * i))).symm.trans
    (congrArg (List.map SubmitEvent.job) hreads)

/-- Behind another tag than a batch's, a datagram that is no job. -/
theorem onSubmit_tagged {data : Bytes} {tag : UInt8} (hlen : 9 ≤ data.length)
    (htag : data.getD 0 0 = tag) (hbatch : tag ≠ TAG_JOB_BATCH) :
    onSubmit data =
      if (data.length == 9 || data.length == 11) && tag == TAG_DISCONNECT then
        [.disconnect (readI64Le data 1) (if data.length == 11 then readU16Le data 9 else 0)]
      else if data.length ≥ WS_TAG_HEADER && tag == TAG_WS_MESSAGE then
        [.wsMessage (readI64Le data 1) (data.getD 9 0) (data.drop WS_TAG_HEADER)]
      else if data.length ≥ 11 && tag == TAG_BUS_FRAME then
        [.busFrame (readI64Le data 1) ((data.drop 11).take (readU16Le data 9))
          (data.drop (11 + readU16Le data 9))]
      else [.closed] := by
  have hnotJob : (data.length == 8) = false := by
    rw [beq_eq_false_iff_ne]
    omega
  have hnotBatch : (decide (data.length ≥ 9) && tag == TAG_JOB_BATCH && (data.length - 1) % 8 == 0) =
      false := by
    rw [beq_eq_false_iff_ne.mpr hbatch, Bool.and_false, Bool.false_and]
  unfold onSubmit
  rw [htag, hnotJob, if_neg Bool.false_ne_true, hnotBatch, if_neg Bool.false_ne_true]

theorem onSubmit_disconnect {slot code : Int} (hslot : IsSlot slot) (hcode : 0 ≤ code ∧ code < 65536) :
    onSubmit (sendDisconnectTag slot code) = [.disconnect slot code.toNat] := by
  have hbare := length_tagged TAG_DISCONNECT slot
  unfold sendDisconnectTag
  dsimp only
  split
  · next hpos =>
    have hlen : (appendU16Le (appendI64Le [TAG_DISCONNECT] slot) code.toNat).length = 11 := by
      rw [length_appendU16Le, hbare]
    have htag : (appendU16Le (appendI64Le [TAG_DISCONNECT] slot) code.toNat).getD 0 0 =
        TAG_DISCONNECT := by
      rw [appendU16Le_eq, getD_tagged]
    have hread : readI64Le (appendU16Le (appendI64Le [TAG_DISCONNECT] slot) code.toNat) 1 = slot := by
      rw [appendU16Le_eq]
      exact readI64Le_tagged hslot.holds _
    have hcodeRead : readU16Le (appendU16Le (appendI64Le [TAG_DISCONNECT] slot) code.toNat) 9 =
        code.toNat := by
      have hback := readU16Le_appendU16Le (v := code.toNat) (by omega) (appendI64Le [TAG_DISCONNECT] slot)
        []
      rwa [List.append_nil, hbare] at hback
    rw [onSubmit_tagged (by omega) htag (by decide), hlen, hread, hcodeRead]
    rfl
  · next hzero =>
    have hcode0 : code.toNat = 0 := by omega
    have htag : (appendI64Le [TAG_DISCONNECT] slot).getD 0 0 = TAG_DISCONNECT := by
      have hfirst := @getD_tagged TAG_DISCONNECT slot []
      rwa [List.append_nil] at hfirst
    have hread : readI64Le (appendI64Le [TAG_DISCONNECT] slot) 1 = slot := by
      have hback := @readI64Le_tagged TAG_DISCONNECT slot hslot.holds []
      rwa [List.append_nil] at hback
    rw [onSubmit_tagged (by omega) htag (by decide), hbare, hread, hcode0]
    rfl

theorem onSubmit_wsMessage {slot : Int} {opcode : UInt8} {payload datagram : Bytes} (hslot : IsSlot slot)
    (hsent : sendWsMessageTag slot opcode payload = some datagram) :
    datagram.take WS_DATAGRAM_MAX = datagram ∧ onSubmit datagram = [.wsMessage slot opcode payload] := by
  unfold sendWsMessageTag at hsent
  split at hsent
  · cases hsent
  · next hroom =>
    have hdatagram := (Option.some.inj hsent).symm
    have hhead : (appendI64Le [TAG_WS_MESSAGE] slot ++ [opcode]).length = WS_TAG_HEADER := by
      rw [List.length_append, length_tagged]
      rfl
    have hlen : datagram.length = WS_TAG_HEADER + payload.length := by
      rw [hdatagram, List.length_append, hhead]
    have htag : datagram.getD 0 0 = TAG_WS_MESSAGE := by
      rw [hdatagram, List.append_assoc, getD_tagged]
    have hread : readI64Le datagram 1 = slot := by
      rw [hdatagram, List.append_assoc]
      exact readI64Le_tagged hslot.holds _
    have hopcode : datagram.getD 9 0 = opcode := by
      rw [hdatagram, List.append_assoc, List.getD_append_right _ _ _ _ (by rw [length_tagged]),
        length_tagged]
      rfl
    have hpayload : datagram.drop WS_TAG_HEADER = payload := by
      rw [hdatagram]
      exact List.drop_left' hhead
    have hmessage : (decide (datagram.length ≥ WS_TAG_HEADER) && TAG_WS_MESSAGE == TAG_WS_MESSAGE) =
        true := by
      rw [hlen, decide_eq_true (by omega)]
      rfl
    have hnotDisconnect : ((datagram.length == 9 || datagram.length == 11) &&
        TAG_WS_MESSAGE == TAG_DISCONNECT) = false := Bool.and_false _
    have hlong : 9 ≤ datagram.length := by
      unfold WS_TAG_HEADER at hlen
      omega
    refine ⟨List.take_of_length_le (by omega), ?_⟩
    rw [onSubmit_tagged hlong htag (by decide), hnotDisconnect, if_neg Bool.false_ne_true, hmessage,
      if_pos rfl, hread, hopcode, hpayload]

theorem onSubmit_busFrame {eventId : Int} {url : Bytes} (hid : Holds 8 eventId)
    (hurl : url.length ≤ MAX_CHANNEL) (frame : Bytes) :
    onSubmit (sendBusFrameTag eventId url frame) = [.busFrame eventId url frame] := by
  have hbare := length_tagged TAG_BUS_FRAME eventId
  have hhead : (appendU16Le (appendI64Le [TAG_BUS_FRAME] eventId) url.length).length = 11 := by
    rw [length_appendU16Le, hbare]
  have hlen : (sendBusFrameTag eventId url frame).length = 11 + url.length + frame.length := by
    unfold sendBusFrameTag
    rw [List.length_append, List.length_append, hhead]
  have htag : (sendBusFrameTag eventId url frame).getD 0 0 = TAG_BUS_FRAME := by
    unfold sendBusFrameTag
    rw [appendU16Le_eq, List.append_assoc, List.append_assoc, getD_tagged]
  have hread : readI64Le (sendBusFrameTag eventId url frame) 1 = eventId := by
    unfold sendBusFrameTag
    rw [appendU16Le_eq, List.append_assoc, List.append_assoc]
    exact readI64Le_tagged hid _
  have hulen : readU16Le (sendBusFrameTag eventId url frame) 9 = url.length := by
    have hback := readU16Le_appendU16Le (v := url.length) (Nat.lt_succ_of_le hurl)
      (appendI64Le [TAG_BUS_FRAME] eventId) (url ++ frame)
    rwa [← List.append_assoc, hbare] at hback
  have hname : ((sendBusFrameTag eventId url frame).drop 11).take url.length = url := by
    unfold sendBusFrameTag
    rw [List.append_assoc, List.drop_left' hhead, List.take_left]
  have hframe : (sendBusFrameTag eventId url frame).drop (11 + url.length) = frame := by
    unfold sendBusFrameTag
    exact List.drop_left' (by rw [List.length_append, hhead])
  have hshape : (decide ((sendBusFrameTag eventId url frame).length ≥ 11) &&
      TAG_BUS_FRAME == TAG_BUS_FRAME) = true := by
    rw [hlen, decide_eq_true (by omega)]
    rfl
  have hnotDisconnect : (((sendBusFrameTag eventId url frame).length == 9 ||
      (sendBusFrameTag eventId url frame).length == 11) && TAG_BUS_FRAME == TAG_DISCONNECT) = false :=
    Bool.and_false _
  have hnotMessage : (decide ((sendBusFrameTag eventId url frame).length ≥ WS_TAG_HEADER) &&
      TAG_BUS_FRAME == TAG_WS_MESSAGE) = false := Bool.and_false _
  rw [onSubmit_tagged (by omega) htag (by decide), hnotDisconnect, if_neg Bool.false_ne_true, hnotMessage,
    if_neg Bool.false_ne_true, hshape, if_pos rfl, hread, hulen, hname, hframe]

/-- What the read takes of a bus frame: the head and the name always, of the frame what is left. -/
theorem take_sendBusFrameTag {url : Bytes} (hurl : url.length ≤ MAX_CHANNEL) (eventId : Int)
    (frame : Bytes) :
    (sendBusFrameTag eventId url frame).take WS_DATAGRAM_MAX =
      sendBusFrameTag eventId url (frame.take (WS_DATAGRAM_MAX - (11 + url.length))) := by
  have hhead : (appendU16Le (appendI64Le [TAG_BUS_FRAME] eventId) url.length ++ url).length =
      11 + url.length := by
    rw [List.length_append, length_appendU16Le, length_tagged]
  have hfits : 11 + url.length ≤ WS_DATAGRAM_MAX := by
    unfold WS_DATAGRAM_MAX
    unfold MAX_CHANNEL at hurl
    omega
  unfold sendBusFrameTag
  rw [List.take_append, List.take_of_length_le (by rw [hhead]; exact hfits), hhead]

/-- **An executor does what was meant by the datagram it takes.** -/
theorem onSubmit_written {datagram : Bytes} {events : List SubmitEvent}
    (h : OnExecutorLane datagram events) : onSubmit (datagram.take WS_DATAGRAM_MAX) = events := by
  cases h with
  | @jobs slots _ hslots hmany hsent =>
    cases slots with
    | nil => cases hsent
    | cons slot slots =>
      cases slots with
      | nil =>
        cases hsent
        rw [take_encodeJob, onSubmit_job (hslots slot List.mem_cons_self).holds]
        rfl
      | cons next slots =>
        cases hsent
        have hlen : (encodeJobBatch (slot :: next :: slots)).length =
            1 + JOB_BYTES * (slot :: next :: slots).length := by
          rw [← length_flatMap_encodeJob, Nat.add_comm]
          exact congrArg List.length (foldl_appendI64Le (slot :: next :: slots) [TAG_JOB_BATCH])
        have hfits : (encodeJobBatch (slot :: next :: slots)).length ≤ WS_DATAGRAM_MAX := by
          rw [hlen]
          unfold SUBMIT_BATCH_MAX at hmany
          unfold JOB_BYTES WS_DATAGRAM_MAX
          omega
        rw [List.take_of_length_le hfits, onSubmit_batch hslots (List.cons_ne_nil _ _)]
  | pill =>
    rw [take_encodeJob, onSubmit_job (by decide)]
  | @disconnect slot code hslot hcode =>
    have hfits : (sendDisconnectTag slot code).length ≤ WS_DATAGRAM_MAX := by
      have hbare := length_tagged TAG_DISCONNECT slot
      unfold sendDisconnectTag WS_DATAGRAM_MAX
      dsimp only
      split
      · rw [length_appendU16Le, hbare]
        decide
      · rw [hbare]
        decide
    rw [List.take_of_length_le hfits, onSubmit_disconnect hslot hcode]
  | wsMessage hslot hsent =>
    have ⟨htake, hevents⟩ := onSubmit_wsMessage hslot hsent
    rw [htake, hevents]
  | busFrame hid hurl frame =>
    rw [take_sendBusFrameTag hurl, onSubmit_busFrame hid hurl]

/-! ## The completion channel -/

/-- What a datagram adds to a drain. -/
def Drained.append (d e : Drained) : Drained := ⟨d.done ++ e.done, d.aborts ++ e.aborts⟩

/-- A datagram of whole slots: those that are no wake. -/
theorem take_slots {slots : List Int} (hslots : ∀ slot ∈ slots, Holds 8 slot) (d : Drained) :
    d.take (slots.flatMap encodeJob) = d.append ⟨slots.filter (· != POKE), []⟩ := by
  have hlen := length_flatMap_encodeJob slots
  have hnotAbort : ((slots.flatMap encodeJob).length == ABORT_BYTES) = false := by
    rw [beq_eq_false_iff_ne, hlen]
    unfold JOB_BYTES ABORT_BYTES
    omega
  have hcount : (slots.flatMap encodeJob).length / JOB_BYTES = slots.length := by
    rw [hlen, Nat.mul_div_cancel_left _ (by decide)]
  have hwhole : ((slots.flatMap encodeJob).length % JOB_BYTES != 0) = false := by
    rw [hlen, Nat.mul_mod_right]
    rfl
  have hreads : (List.range slots.length).map
      (fun i => readI64Le (slots.flatMap encodeJob) (i * JOB_BYTES)) = slots := by
    refine Eq.trans (List.map_congr_left fun i _ => ?_) (map_readI64Le hslots [])
    rw [List.nil_append, List.length_nil, Nat.zero_add, Nat.mul_comm]
  unfold Drained.take
  dsimp only
  rw [hnotAbort, Bool.false_and, if_neg Bool.false_ne_true, hwhole, if_neg Bool.false_ne_true, hcount,
    hreads]
  unfold Drained.append
  rw [List.append_nil]

theorem filter_slots {slots : List Int} (hslots : ∀ slot ∈ slots, IsSlot slot) :
    slots.filter (· != POKE) = slots := by
  refine List.filter_eq_self.mpr fun slot hmem => ?_
  rw [bne_iff_ne]
  exact (hslots slot hmem).ne_pill.2

theorem flatMap_one (slot : Int) : [slot].flatMap encodeJob = encodeJob slot := by
  rw [List.flatMap_cons, List.flatMap_nil, List.append_nil]

theorem take_abort {slot gen : Int} (hslot : IsSlot slot) (hgen : Holds 8 gen) (d : Drained) :
    d.take (abortStream slot gen) = d.append ⟨[], [slot, gen]⟩ := by
  have hbare := length_tagged TAG_STREAM_ABORT slot
  have hlen : (abortStream slot gen).length = ABORT_BYTES := by
    unfold abortStream
    exact (length_appendLe _ gen).trans (congrArg (· + 8) hbare)
  have htag : (abortStream slot gen).getD 0 0 = TAG_STREAM_ABORT := by
    have hword : abortStream slot gen = appendI64Le [TAG_STREAM_ABORT] slot ++ bytes 8 (pattern 8 gen) :=
      appendLe_eq _ gen
    rw [hword, getD_tagged]
  have hslotRead : readI64Le (abortStream slot gen) 1 = slot := by
    have hword : abortStream slot gen = appendI64Le [TAG_STREAM_ABORT] slot ++ bytes 8 (pattern 8 gen) :=
      appendLe_eq _ gen
    rw [hword, readI64Le_tagged hslot.holds]
  have hgenRead : readI64Le (abortStream slot gen) 9 = gen := by
    have hback := readLe_appendLe (by decide) hgen (appendI64Le [TAG_STREAM_ABORT] slot) []
    rwa [List.append_nil, hbare] at hback
  unfold Drained.take
  dsimp only
  rw [hlen, htag, hslotRead, hgenRead]
  unfold Drained.append
  rw [List.append_nil]
  rfl

/-- What one datagram was written for, it adds; it is not empty and read whole. -/
theorem take_written {datagram : Bytes} {e : Drained} (h : OnCompletions datagram e) (d : Drained) :
    datagram.take (OFFLOAD_MAX_INFLIGHT * JOB_BYTES) = datagram ∧ (datagram.length == 0) = false ∧
      d.take datagram = d.append e := by
  have hjob : ∀ slot, (encodeJob slot).take (OFFLOAD_MAX_INFLIGHT * JOB_BYTES) = encodeJob slot ∧
      ((encodeJob slot).length == 0) = false := by
    intro slot
    refine ⟨List.take_of_length_le ?_, ?_⟩
    · rw [length_encodeJob]
      decide
    · rw [length_encodeJob]
      rfl
  cases h with
  | @complete slot hslot =>
    have htake := @take_slots [slot] (by simpa using hslot.holds) d
    rw [flatMap_one, filter_slots (by simpa using hslot)] at htake
    exact ⟨(hjob slot).1, (hjob slot).2, htake⟩
  | @many slots _ hslots hmany hsent =>
    unfold completeMany at hsent
    split at hsent
    · cases hsent
    · next hne =>
      have hbatch : datagram = slots.flatMap encodeJob := by
        rw [← Option.some.inj hsent]
        exact (foldl_appendI64Le slots []).trans (List.nil_append _)
      have hlen : datagram.length = JOB_BYTES * slots.length := by
        rw [hbatch, length_flatMap_encodeJob]
      have hcount : slots.length ≠ 0 := by simpa using hne
      refine ⟨List.take_of_length_le ?_, ?_, ?_⟩
      · rw [hlen, Nat.mul_comm]
        exact Nat.mul_le_mul_right _ hmany
      · rw [beq_eq_false_iff_ne, hlen]
        unfold JOB_BYTES
        omega
      · rw [hbatch, take_slots fun slot hmem => (hslots slot hmem).holds, filter_slots hslots]
  | wake =>
    have htake := @take_slots [POKE] (by simpa using (by decide : Holds 8 POKE)) d
    rw [flatMap_one] at htake
    exact ⟨(hjob POKE).1, (hjob POKE).2, htake⟩
  | @abort slot gen hslot hgen =>
    have hlen : (abortStream slot gen).length = ABORT_BYTES :=
      (length_appendLe _ gen).trans (congrArg (· + 8) (length_tagged TAG_STREAM_ABORT slot))
    refine ⟨List.take_of_length_le ?_, ?_, take_abort hslot hgen d⟩
    · rw [hlen]
      decide
    · rw [hlen]
      rfl

/-- **A drain hands the loop what was written, in its order.** -/
theorem drainChannel_written {queue : List (Bytes × Drained)}
    (h : ∀ w ∈ queue, OnCompletions w.1 w.2) (d : Drained) :
    drainChannel (queue.map (·.1)) d = (queue.map (·.2)).foldl Drained.append d := by
  induction queue generalizing d with
  | nil => rfl
  | cons w queue ih =>
    have ⟨hwhole, hsome, htake⟩ := take_written (h w List.mem_cons_self) d
    rw [List.map_cons, List.map_cons, List.foldl_cons, ← htake,
      ← ih fun w hw => h w (List.mem_cons_of_mem _ hw)]
    show (if _ then _ else _) = _
    rw [hwhole, hsome]
    rfl

/-! ## The channels together -/

/-- **What the channels carry is decoded as it was encoded:** the bus frames both ways, the words, the
drain acks, the names, and on each channel every datagram that its writers put there. -/
theorem datagrams_decode :
    (∀ url eventId frame, url.length ≤ MAX_CHANNEL → Holds 8 eventId →
      decodeBusFrame (encodeBusFrame url eventId frame) = some ⟨url, eventId, frame⟩) ∧
    (∀ datagram f, decodeBusFrame datagram = some f →
      encodeBusFrame f.url f.eventId f.frame = datagram) ∧
    (∀ v, Holds 8 v → ∀ out rest, readI64Le (appendI64Le out v ++ rest) out.length = v) ∧
    (∀ v, Holds 4 v → ∀ out rest, readI32Le (appendI32Le out v ++ rest) out.length = v) ∧
    (∀ slot credit, Holds 4 slot → Holds 4 credit →
      decodeAck (encodeAck slot credit) = (slot, credit)) ∧
    (∀ kind slot lane, BytesConstant.SLASH ∉ kind → IsSlot slot →
      parseStreamSlot (reservedUrl kind slot lane) = slot ∧
        parseStreamLane (reservedUrl kind slot lane) = if 0 ≤ lane then lane else -1) ∧
    (∀ slot lane ackFd, IsSlot slot → 0 ≤ ackFd →
      parseStreamSlot (poolStreamUrl slot lane ackFd) = slot ∧
        parseStreamLane (poolStreamUrl slot lane ackFd) = (if 0 ≤ lane then lane else -1) ∧
        poolStreamAckFd (poolStreamUrl slot lane ackFd) = ackFd) ∧
    (∀ datagram action, OnPoolLane datagram action →
      (recvDatagram (datagram.take WS_DATAGRAM_MAX)).action (datagram.take WS_DATAGRAM_MAX) = action) ∧
    (∀ datagram events, OnExecutorLane datagram events →
      onSubmit (datagram.take WS_DATAGRAM_MAX) = events) ∧
    (∀ queue : List (Bytes × Drained), (∀ w ∈ queue, OnCompletions w.1 w.2) → ∀ d,
      drainChannel (queue.map (·.1)) d = (queue.map (·.2)).foldl Drained.append d) := by
  refine ⟨?_, ?_, ?_, ?_, ?_, ?_, ?_, ?_, ?_, ?_⟩
  · intro url eventId frame hurl hid
    exact decodeBusFrame_encodeBusFrame hurl hid frame
  · intro datagram f h
    exact encodeBusFrame_of_decodeBusFrame h
  · intro v hv out rest
    exact readLe_appendLe (by decide) hv out rest
  · intro v hv out rest
    exact readLe_appendLe (by decide) hv out rest
  · intro slot credit hslot hcredit
    exact decodeAck_encodeAck hslot hcredit
  · intro kind slot lane hkind hslot
    exact parse_reservedUrl hkind hslot.1 lane
  · intro slot lane ackFd hslot hackFd
    exact parse_poolStreamUrl hslot.1 hackFd lane
  · intro datagram action h
    exact recvDatagram_written h
  · intro datagram events h
    exact onSubmit_written h
  · intro queue h d
    exact drainChannel_written h d

/-- A batch of three beside an abort whose first bytes are its tag's and a wake. -/
theorem datagrams_decode_drain :
    drainChannel [encodeCompletions [5, 517, 3], abortStream 5 (-7), encodeJob POKE] ⟨[], []⟩ =
      ⟨[5, 517, 3], [5, -7]⟩ := by
  have h := datagrams_decode.2.2.2.2.2.2.2.2.2
    [(encodeCompletions [5, 517, 3], ⟨[5, 517, 3], []⟩), (abortStream 5 (-7), ⟨[], [5, -7]⟩),
      (encodeJob POKE, ⟨[], []⟩)] ?_ ⟨[], []⟩
  · exact h
  · intro w hw
    simp only [List.mem_cons, List.not_mem_nil, or_false] at hw
    rcases hw with rfl | rfl | rfl
    · refine .many ?_ (by decide) rfl
      unfold IsSlot
      decide
    · exact .abort (by unfold IsSlot; decide) (by decide)
    · exact .wake

end MojoHttp.Wire
