import MojoHttp.WebSocket.Utf8
import MojoHttp.WebSocket.Wire
import Mathlib.Data.List.Zip

/-!
# A hostile peer cannot grow or confuse the WebSocket parser

What `feed` keeps, delivers and replies is bounded whatever the peer sends: the bounds stand at
different places (a control frame's length, a frame's, a message's), and every violation resets the
parser.

* **`unmaskPayload_eq`** — the 64 lanes mask each byte by its place modulo four.
* **`WSState.Bounded`**, **`WSParseResult.Clean`** — what the parser keeps, and what a result is.
* **`takeFrame_clean`** — a frame within the bounds keeps both.
* **`hostile_peer_bounded`** — so does every sequence of calls.
-/

namespace MojoHttp

open Rfc3629

/-! ## Unmasking -/

theorem getElem?_maskLanes (mask : Bytes) {k : Nat} (hk : k < 64) :
    (maskLanes mask)[k]? = some (mask.getD (k % 4) 0) := by
  unfold maskLanes
  rw [List.getElem?_map, List.getElem?_range hk]
  rfl

/-- Whole chunks start at multiples of 64, so their lanes are in phase; so is the tail. -/
theorem getElem?_unmaskFrom (masked mask : Bytes) {fuel i : Nat} (hfuel : masked.length - i < fuel)
    (hphase : i % 4 = 0 ∨ masked.length < i + 64) (k : Nat) :
    (unmaskFrom masked mask fuel i)[k]? =
      masked[i + k]?.map fun b => b ^^^ mask.getD ((i + k) % 4) 0 := by
  induction fuel generalizing i k with
  | zero => omega
  | succ fuel ih =>
    rw [unmaskFrom]
    by_cases hchunk : i + 64 ≤ masked.length
    · have hlen : ((slice masked i (i + 64)).zipWith (· ^^^ ·) (maskLanes mask)).length = 64 := by
        rw [List.length_zipWith, slice, List.length_take, List.length_drop, maskLanes,
          List.length_map, List.length_range]
        omega
      rw [if_pos hchunk]
      by_cases hk : k < 64
      · have hslice : (slice masked i (i + 64))[k]? = masked[i + k]? := by
          rw [slice, List.getElem?_take, if_pos (by omega), List.getElem?_drop]
        rw [List.getElem?_append_left (by omega), List.getElem?_zipWith, hslice,
          getElem?_maskLanes mask hk, List.getElem?_eq_getElem (by omega : i + k < masked.length),
          show (i + k) % 4 = k % 4 by omega]
        rfl
      · rw [List.getElem?_append_right (by omega), hlen, ih (by omega) (by omega),
          show i + 64 + (k - 64) = i + k by omega]
    · rw [if_neg hchunk]
      by_cases hi : i < masked.length
      · rw [if_pos hi]
        cases k with
        | zero =>
          rw [List.getElem?_cons_zero, Nat.add_zero, List.getElem?_eq_getElem hi, Option.map_some,
            List.getD_eq_getElem?_getD, List.getElem?_eq_getElem hi]
          rfl
        | succ k =>
          rw [List.getElem?_cons_succ, ih (by omega) (by omega), show i + 1 + k = i + (k + 1) by omega]
      · rw [if_neg hi, List.getElem?_nil, List.getElem?_eq_none (by omega)]
        rfl

/-- **The 64-byte XOR masks each byte by its place modulo four.** -/
theorem unmaskPayload_eq (masked mask : Bytes) :
    unmaskPayload masked mask = masked.mapIdx fun i b => b ^^^ mask.getD (i % 4) 0 := by
  refine List.ext_getElem? fun k => ?_
  rw [unmaskPayload, getElem?_unmaskFrom masked mask (by omega) (.inl rfl), List.getElem?_mapIdx,
    Nat.zero_add]

@[simp] theorem length_unmaskPayload (masked mask : Bytes) :
    (unmaskPayload masked mask).length = masked.length := by
  rw [unmaskPayload_eq, List.length_mapIdx]

/-! ## What may be sent -/

/-- A whole control frame as RFC 6455 §5.5 has it: FIN, no reserved bit, no mask, its length in the
second byte. -/
def WsFrame.control (f : WsFrame) : Bytes :=
  toByte (0x80 + f.opcode) :: toByte f.payload.length :: f.payload

/-- The close codes that may stand in a Close frame (RFC 6455 §7.4): not those that only describe a
close to the application, not those reserved for later. -/
def MaySend (code : Nat) : Prop :=
  1000 ≤ code ∧ code ≤ 4999 ∧ code ∉ [1004, 1005, 1006, 1015] ∧ ¬ (1016 ≤ code ∧ code ≤ 2999)

/-- The payload of a Close this side sends: empty, or a code. -/
def CloseBody (payload : Bytes) : Prop :=
  payload = [] ∨ ∃ hi lo : UInt8, payload = [hi, lo] ∧ MaySend (hi.toNat * 256 + lo.toNat)

/-- What stands in a reply: Pongs, and a Close with a code that may be sent. -/
structure IsReply (f : WsFrame) : Prop where
  control : f.opcode = WS_OP_PONG ∨ f.opcode = WS_OP_CLOSE
  short : f.payload.length ≤ 125
  close : f.opcode = WS_OP_CLOSE → CloseBody f.payload

/-- The codes this side closes with itself. -/
def refusals : List Nat := [WS_CLOSE_PROTOCOL_ERROR, WS_CLOSE_INVALID_DATA, WS_CLOSE_TOO_BIG]

theorem protocolError_mem : WS_CLOSE_PROTOCOL_ERROR ∈ refusals := by decide

theorem tooBig_mem : WS_CLOSE_TOO_BIG ∈ refusals := by decide

theorem maySend_of_valid {code : Nat} (h : closeCodeIsValidFromPeer code = true) : MaySend code := by
  simp only [closeCodeIsValidFromPeer, Bool.or_eq_true, Bool.and_eq_true, decide_eq_true_eq] at h
  refine ⟨by omega, by omega, ?_, by omega⟩
  simp only [List.mem_cons, List.not_mem_nil, or_false, not_or]
  omega

/-- The encoder writes control frames so. -/
theorem encode_eq_control {f : WsFrame} (h : IsReply f) : f.encode = f.control := by
  obtain ⟨opcode, payload⟩ := f
  have hlen : payload.length ≤ 125 := h.short
  unfold WsFrame.encode encodeWsFrame frameHeader WsFrame.control
  dsimp only
  rw [if_pos hlen]
  rcases h.control with rfl | rfl
  all_goals
    simp only [Bool.false_eq_true, if_false, Nat.zero_or]
    rfl

/-! ## What the parser keeps and answers -/

/-- Bounded, but for the bytes not parsed yet. -/
structure WSState.Bounded (maxMessageSize : Nat) (st : WSState) : Prop where
  maxMessageSize_eq : st.maxMessageSize = maxMessageSize
  length_fragPayload : st.fragPayload.length ≤ maxMessageSize
  fragOpcode : ∀ opcode, st.fragOpcode = some opcode → opcode = WS_OP_TEXT ∨ opcode = WS_OP_BINARY
  fragPayload : st.fragOpcode = none → st.fragPayload = []

/-- A message that may be delivered. -/
structure IsMessage (maxMessageSize opcode : Nat) (payload : Bytes) : Prop where
  kind : opcode = WS_OP_TEXT ∨ opcode = WS_OP_BINARY
  length : payload.length ≤ maxMessageSize
  text : opcode = WS_OP_TEXT → Octets payload

structure WSParseResult.Clean (maxMessageSize : Nat) (res : WSParseResult) : Prop where
  length_msgs : res.msgOpcodes.length = res.msgPayloads.length
  messages : ∀ m ∈ res.msgOpcodes.zip res.msgPayloads, IsMessage maxMessageSize m.1 m.2
  reply : ∃ frames, res.reply = wire frames ∧ (∀ f ∈ frames, IsReply f) ∧ closeEnds frames = true ∧
    hasClose frames = res.closeAfterReply

theorem clean_empty (maxMessageSize : Nat) : WSParseResult.Clean maxMessageSize {} :=
  ⟨rfl, fun _ hm => absurd hm List.not_mem_nil, [], rfl, fun _ hf => absurd hf List.not_mem_nil, rfl, rfl⟩

section Steps

variable {maxMessageSize : Nat} {st : WSState} {res : WSParseResult} {payload : Bytes}

/-- A Pong behind the reply so far. -/
theorem WSParseResult.Clean.pong (h : res.Clean maxMessageSize) (hopen : res.closeAfterReply = false)
    (hlen : payload.length ≤ 125) :
    WSParseResult.Clean maxMessageSize
      { res with reply := res.reply ++ encodeWsFrame WS_OP_PONG payload } := by
  obtain ⟨frames, hreply, hframes, hends, hclose⟩ := h.reply
  refine ⟨h.length_msgs, h.messages, frames ++ [⟨WS_OP_PONG, payload⟩], ?_, ?_, ?_, ?_⟩
  · rw [hreply, wire_append]
    simp [wire, WsFrame.encode]
  · intro f hf
    rcases List.mem_append.mp hf with hf | hf
    · exact hframes f hf
    · rw [List.mem_singleton.mp hf]
      exact ⟨.inl rfl, hlen, fun heq => absurd heq (show WS_OP_PONG ≠ WS_OP_CLOSE by decide)⟩
  · rw [closeEnds_append_singleton, hclose, hopen]
    rfl
  · rw [hasClose_append, hclose, hopen]
    rfl

/-- The Close behind the reply so far. -/
theorem WSParseResult.Clean.close (h : res.Clean maxMessageSize) (hopen : res.closeAfterReply = false)
    (hbody : CloseBody payload) (closeCode : Int) :
    WSParseResult.Clean maxMessageSize
      { res with
        reply := res.reply ++ encodeWsFrame WS_OP_CLOSE payload, closeAfterReply := true, closeCode } := by
  obtain ⟨frames, hreply, hframes, hends, hclose⟩ := h.reply
  have hlen : payload.length ≤ 125 := by
    rcases hbody with rfl | ⟨hi, lo, rfl, -⟩
    · exact Nat.zero_le _
    · show 2 ≤ 125
      omega
  refine ⟨h.length_msgs, h.messages, frames ++ [⟨WS_OP_CLOSE, payload⟩], ?_, ?_, ?_, ?_⟩
  · rw [hreply, wire_append]
    simp [wire, WsFrame.encode]
  · intro f hf
    rcases List.mem_append.mp hf with hf | hf
    · exact hframes f hf
    · rw [List.mem_singleton.mp hf]
      exact ⟨.inr rfl, hlen, fun _ => hbody⟩
  · rw [closeEnds_append_singleton, hclose, hopen]
    rfl
  · rw [hasClose_append]
    exact Bool.or_true _

/-- A message behind those so far. -/
theorem WSParseResult.Clean.message {opcode : Nat} (h : res.Clean maxMessageSize)
    (hm : IsMessage maxMessageSize opcode payload) :
    WSParseResult.Clean maxMessageSize { res with
      msgOpcodes := res.msgOpcodes ++ [opcode], msgPayloads := res.msgPayloads ++ [payload] } := by
  refine ⟨?_, ?_, h.reply⟩
  · rw [List.length_append, List.length_append, h.length_msgs]
    rfl
  · intro m hmem
    rw [List.zip_append h.length_msgs] at hmem
    rcases List.mem_append.mp hmem with hmem | hmem
    · exact h.messages m hmem
    · rw [List.mem_singleton.mp hmem]
      exact hm

/-- What a step or a call leaves behind: the parser bounded, the result clean. -/
structure Kept (maxMessageSize : Nat) (st : WSState) (res : WSParseResult) : Prop where
  bounded : st.Bounded maxMessageSize
  clean : res.Clean maxMessageSize

/-- **A violation resets the parser** and sends a Close. -/
theorem fail_kept (hst : st.maxMessageSize = maxMessageSize) (hres : res.Clean maxMessageSize)
    (hopen : res.closeAfterReply = false) {code : Nat}
    (hcode : code ∈ refusals) :
    Kept maxMessageSize (st.fail res code).1 (st.fail res code).2 ∧ (st.fail res code).1.buffer = [] := by
  refine ⟨⟨⟨hst, Nat.zero_le _, fun _ h => (by cases h), fun _ => rfl⟩, ?_⟩, rfl⟩
  refine hres.close hopen (.inr ⟨_, _, rfl, ?_⟩) code
  have hall : ∀ code ∈ refusals,
      closeCodeIsValidFromPeer
        ((toByte ((code >>> 8) &&& 0xFF)).toNat * 256 + (toByte (code &&& 0xFF)).toNat) = true := by
    decide
  exact maySend_of_valid (hall code hcode)

/-- What a frame leaves behind, by whether the loop goes on. -/
def Taken.Keeps (maxMessageSize : Nat) (st : WSState) : Taken → Prop
  | .again st' res => Kept maxMessageSize st' res ∧ res.closeAfterReply = false ∧ st'.buffer = st.buffer
  | .closed st' res => Kept maxMessageSize st' res ∧ st'.buffer = []

theorem Taken.keeps_fail (hst : st.maxMessageSize = maxMessageSize) (hres : res.Clean maxMessageSize)
    (hopen : res.closeAfterReply = false) {code : Nat}
    (hcode : code ∈ refusals)
    (st₀ : WSState) : (Taken.fail st res code).Keeps maxMessageSize st₀ :=
  fail_kept hst hres hopen hcode

theorem takeClose_keeps (hst : st.Bounded maxMessageSize) (hres : res.Clean maxMessageSize)
    (hopen : res.closeAfterReply = false) (payload : Bytes) :
    (takeClose st res payload).Keeps maxMessageSize st := by
  have hfail : ∀ code ∈ refusals, (Taken.fail st res code).Keeps maxMessageSize st :=
    fun code hcode => Taken.keeps_fail hst.maxMessageSize_eq hres hopen hcode st
  unfold takeClose
  dsimp only
  split
  · exact hfail _ (by decide)
  · next hone =>
    split
    · exact hfail _ (by decide)
    · next hcode =>
      split
      · exact hfail _ (by decide)
      · refine ⟨⟨⟨hst.maxMessageSize_eq, hst.length_fragPayload, hst.fragOpcode, hst.fragPayload⟩,
          hres.close hopen ?_ _⟩, rfl⟩
        cases payload with
        | nil => exact .inl rfl
        | cons hi payload =>
          cases payload with
          | nil => exact absurd rfl hone
          | cons lo payload =>
            refine .inr ⟨hi, lo, rfl, maySend_of_valid ?_⟩
            simp only [List.length_cons, ge_iff_le, Bool.not_eq_true', not_and, Bool.not_eq_false] at hcode
            have hvalid := hcode (by omega)
            have hsum : hi.toNat <<< 8 ||| lo.toNat = hi.toNat * 256 + lo.toNat := by
              rw [← Nat.shiftLeft_add_eq_or_of_lt lo.toNat_lt, Nat.shiftLeft_eq]
            rw [← hsum]
            exact hvalid

theorem takeCont_keeps (hst : st.Bounded maxMessageSize) (hres : res.Clean maxMessageSize)
    (hopen : res.closeAfterReply = false) (fin : Bool) (payload : Bytes) :
    (takeCont st res fin payload).Keeps maxMessageSize st := by
  have hfail : ∀ st' : WSState, st'.maxMessageSize = maxMessageSize → ∀ code ∈ refusals,
      (Taken.fail st' res code).Keeps maxMessageSize st :=
    fun st' h code hcode => Taken.keeps_fail h hres hopen hcode st
  unfold takeCont
  cases hfrag : st.fragOpcode with
  | none => exact hfail _ hst.maxMessageSize_eq _ (by decide)
  | some opcode =>
    dsimp only
    have hopcode := hst.fragOpcode opcode hfrag
    split
    · exact hfail _ hst.maxMessageSize_eq _ (by decide)
    · next hsize =>
      rw [hst.maxMessageSize_eq, Int.not_lt, Int.ofNat_le] at hsize
      split
      · split
        · exact hfail _ hst.maxMessageSize_eq _ (by decide)
        · next htext =>
          refine ⟨⟨⟨hst.maxMessageSize_eq, Nat.zero_le _, fun _ h => (by cases h), fun _ => rfl⟩,
            hres.message ⟨hopcode, ?_, fun heq => ?_⟩⟩, hopen, rfl⟩
          · rw [List.length_append]
            exact hsize
          · rw [← (isValidUtf8_exact _).1]
            simp only [heq, true_and, Bool.not_eq_true', Bool.not_eq_false] at htext
            exact htext
      · refine ⟨⟨⟨hst.maxMessageSize_eq, ?_, fun op h => ?_, fun h => (by cases h)⟩, hres⟩, hopen, rfl⟩
        · show (st.fragPayload ++ payload).length ≤ maxMessageSize
          rw [List.length_append]
          exact hsize
        · obtain rfl := Option.some.inj h
          exact hopcode

/-- **A frame within the bounds keeps them.** -/
theorem takeFrame_keeps (hst : st.Bounded maxMessageSize) (hres : res.Clean maxMessageSize)
    (hopen : res.closeAfterReply = false) (fin : Bool) {opcode : Nat}
    (hlen : payload.length ≤ maxMessageSize) (hcontrol : opcode ≥ 0x8 → payload.length ≤ 125) :
    (takeFrame st res fin opcode payload).Keeps maxMessageSize st := by
  have hfail : ∀ code ∈ refusals, (Taken.fail st res code).Keeps maxMessageSize st :=
    fun code hcode => Taken.keeps_fail hst.maxMessageSize_eq hres hopen hcode st
  unfold takeFrame
  split
  · next hop =>
    split
    · exact hfail _ (by decide)
    · split
      · exact ⟨⟨hst, hres.pong hopen (hcontrol hop)⟩, hopen, rfl⟩
      · split
        · exact ⟨⟨hst, hres⟩, hopen, rfl⟩
        · split
          · exact takeClose_keeps hst hres hopen payload
          · exact hfail _ (by decide)
  · split
    · next hdata =>
      split
      · exact hfail _ (by decide)
      · split
        · split
          · exact hfail _ (by decide)
          · next htext =>
            refine ⟨⟨hst, hres.message ⟨hdata, hlen, fun heq => ?_⟩⟩, hopen, rfl⟩
            rw [← (isValidUtf8_exact _).1]
            simp only [heq, true_and, Bool.not_eq_true', Bool.not_eq_false] at htext
            exact htext
        · refine ⟨⟨⟨hst.maxMessageSize_eq, hlen, fun op h => ?_, fun h => (by cases h)⟩, hres⟩, hopen, rfl⟩
          obtain rfl := Option.some.inj h
          exact hdata
    · split
      · exact takeCont_keeps hst hres hopen fin payload
      · exact hfail _ (by decide)

end Steps

/-! ## Reading a frame -/

/-- What a length field says, of a frame of which `left` bytes are there. -/
def FrameLength.Fits (left : Nat) : FrameLength → Prop
  | .short => left < 10
  | .bad code => code ∈ refusals
  | .length header _ => header ≤ 10

/-- What stands at the front, when `left` bytes are there: too little, and then less than the
largest frame; a violation; or a frame within the bounds. -/
def FrameRead.Fits (maxMessageSize left : Nat) : FrameRead → Prop
  | .short => left < maxMessageSize + 14
  | .bad code => code ∈ refusals
  | .frame _ opcode payload _ =>
    payload.length ≤ maxMessageSize ∧ (opcode ≥ 0x8 → payload.length ≤ 125)

theorem readLength_fits (maxMessageSize : Int) (buffer : Bytes) (i opcode b1 : Nat) :
    (readLength maxMessageSize buffer i opcode b1).Fits (buffer.length - i) := by
  unfold readLength
  dsimp only
  by_cases h126 : b1 &&& 0x7F = 126
  · rw [if_pos h126]
    by_cases hlen : buffer.length - i < 4
    · rw [if_pos hlen]
      show buffer.length - i < 10
      omega
    · rw [if_neg hlen]
      split
      · exact protocolError_mem
      · exact (by decide : 4 ≤ 10)
  · rw [if_neg h126]
    by_cases h127 : b1 &&& 0x7F = 127
    · rw [if_pos h127]
      by_cases hlen : buffer.length - i < 10
      · rw [if_pos hlen]
        exact hlen
      · rw [if_neg hlen]
        split
        · exact protocolError_mem
        · split
          · exact protocolError_mem
          · split
            · exact tooBig_mem
            · exact le_refl 10
    · rw [if_neg h127]
      exact (by decide : 2 ≤ 10)

/-- **A frame that is read is within the bounds.** -/
theorem readFrame_fits (maxMessageSize : Nat) (buffer : Bytes) (i : Nat) :
    (readFrame maxMessageSize buffer i).Fits maxMessageSize (buffer.length - i) := by
  have hlength := readLength_fits maxMessageSize buffer i ((buffer.getD i 0).toNat &&& 0x0F)
    (buffer.getD (i + 1) 0).toNat
  unfold readFrame
  dsimp only
  by_cases htwo : buffer.length - i < 2
  · rw [if_pos htwo]
    show buffer.length - i < maxMessageSize + 14
    omega
  · rw [if_neg htwo]
    by_cases hrsv : (buffer.getD i 0).toNat &&& 0x70 ≠ 0
    · rw [if_pos hrsv]
      exact protocolError_mem
    · rw [if_neg hrsv]
      by_cases hmask : (buffer.getD (i + 1) 0).toNat &&& 0x80 = 0
      · rw [if_pos hmask]
        exact protocolError_mem
      · rw [if_neg hmask]
        cases hread : readLength maxMessageSize buffer i ((buffer.getD i 0).toNat &&& 0x0F)
            (buffer.getD (i + 1) 0).toNat with
        | short =>
          rw [hread] at hlength
          exact Nat.lt_of_lt_of_le hlength (by omega)
        | bad code =>
          rw [hread] at hlength
          exact hlength
        | length header plen =>
          rw [hread] at hlength
          have hheader : header ≤ 10 := hlength
          dsimp only
          by_cases hctl : (buffer.getD i 0).toNat &&& 0x0F ≥ 0x8 ∧ plen > 125
          · rw [if_pos hctl]
            exact protocolError_mem
          · rw [if_neg hctl]
            by_cases hbig : (plen : Int) > maxMessageSize
            · rw [if_pos hbig]
              exact tooBig_mem
            · rw [if_neg hbig]
              by_cases hpart : buffer.length - i < header + 4 + plen
              · rw [if_pos hpart]
                show buffer.length - i < maxMessageSize + 14
                omega
              · rw [if_neg hpart]
                show (unmaskPayload _ _).length ≤ maxMessageSize ∧
                  (_ → (unmaskPayload _ _).length ≤ 125)
                rw [length_unmaskPayload, slice, List.length_take, List.length_drop]
                exact ⟨by omega, fun hop => by omega⟩

/-! ## Every call -/

/-- **The loop keeps the bounds**, and what it leaves unparsed is less than the largest frame. -/
theorem feedLoop_kept {maxMessageSize fuel i : Nat} {st : WSState} {res : WSParseResult}
    (hfuel : st.buffer.length - i < fuel) (hst : st.Bounded maxMessageSize)
    (hres : res.Clean maxMessageSize) (hopen : res.closeAfterReply = false) :
    Kept maxMessageSize (feedLoop fuel st res i).1 (feedLoop fuel st res i).2 ∧
      (feedLoop fuel st res i).1.buffer.length < maxMessageSize + 14 := by
  -- on the fuel: a frame is not empty
  induction fuel generalizing st res i with
  | zero => omega
  | succ fuel ih =>
    have hfits := readFrame_fits maxMessageSize st.buffer i
    have hsize := @size_of_readFrame maxMessageSize (st.buffer.drop i)
    rw [← readFrame_drop] at hsize
    unfold feedLoop
    rw [hst.maxMessageSize_eq]
    cases hread : readFrame maxMessageSize st.buffer i with
    | short =>
      rw [hread] at hfits
      have hleft : st.buffer.length - i < maxMessageSize + 14 := hfits
      refine ⟨⟨⟨rfl, hst.length_fragPayload, hst.fragOpcode, hst.fragPayload⟩, hres⟩, ?_⟩
      dsimp only
      split
      · rw [slice, List.length_take, List.length_drop]
        omega
      · omega
    | bad code =>
      rw [hread] at hfits
      obtain ⟨hkept, hbuffer⟩ := fail_kept hst.maxMessageSize_eq hres hopen hfits
      refine ⟨hkept, ?_⟩
      dsimp only
      rw [hbuffer]
      exact Nat.zero_lt_succ _
    | frame fin opcode payload size =>
      rw [hread] at hfits
      obtain ⟨hlen, hcontrol⟩ : payload.length ≤ maxMessageSize ∧ (opcode ≥ 0x8 → payload.length ≤ 125) :=
        hfits
      have hkeeps := takeFrame_keeps hst hres hopen fin hlen hcontrol
      dsimp only
      cases htake : takeFrame st res fin opcode payload with
      | again st' res' =>
        rw [htake] at hkeeps
        obtain ⟨hkept, hopen', hbuffer⟩ := hkeeps
        obtain ⟨hpos, hle⟩ := hsize hread
        rw [List.length_drop] at hle
        exact ih (by rw [hbuffer]; omega) hkept.bounded hkept.clean hopen'
      | closed st' res' =>
        rw [htake] at hkeeps
        obtain ⟨hkept, hbuffer⟩ := hkeeps
        refine ⟨hkept, ?_⟩
        dsimp only
        rw [hbuffer]
        exact Nat.zero_lt_succ _

/-- One call. -/
theorem feed_kept {maxMessageSize : Nat} {st : WSState} (hst : st.Bounded maxMessageSize) (data : Bytes) :
    Kept maxMessageSize (st.feed data).1 (st.feed data).2 ∧
      (st.feed data).1.buffer.length < maxMessageSize + 14 := by
  refine feedLoop_kept (by simp) ⟨hst.maxMessageSize_eq, hst.length_fragPayload, hst.fragOpcode,
    hst.fragPayload⟩ (clean_empty maxMessageSize) rfl

/-- The parser behind a sequence of calls, whatever they returned. -/
def WSState.feedAll (st : WSState) (reads : List Bytes) : WSState := reads.foldl (fun st data => (st.feed data).1) st

theorem feedAll_bounded {maxMessageSize : Nat} {st : WSState} (hst : st.Bounded maxMessageSize)
    (reads : List Bytes) : (st.feedAll reads).Bounded maxMessageSize := by
  induction reads generalizing st with
  | nil => exact hst
  | cons data reads ih => exact ih (feed_kept hst data).1.bounded

end MojoHttp
