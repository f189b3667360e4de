import MojoHttp.Bytes
import MojoHttp.Lib.LittleEndian

/-!
# The codecs of the channels (`offload_wire.mojo`, `broadcast.mojo`)

The words of the datagrams that the loop, its pool threads and its executors send each other, lowest
byte first, and the datagrams made of nothing else: drain acks, jobs, completions, bus frames.

* **`Wire.readLe_appendLe`**, **`Wire.appendLe_readLe`** — a word is read back, and written back.
* **`Wire.decodeBusFrame_encodeBusFrame`**, **`Wire.encodeBusFrame_of_decodeBusFrame`** — a bus frame is
  decoded as it was encoded, and what is decoded is an encoding.
-/

namespace MojoHttp.Wire

open LittleEndian

/-! ## Words -/

/-- `append_i64_le` and `append_i32_le` -/
def appendLe (width : Nat) (out : Bytes) (value : Int) : Bytes :=
  let bits := pattern width value
  out ++ (List.range width).map fun i => UInt8.ofNat (bits >>> (8 * i) &&& 0xFF)

/-- `read_i64_le` and `read_i32_le`; there are `width` bytes at `at_`. -/
def readLe (width : Nat) (bytes : Bytes) (at_ : Nat) : Int :=
  signed width
    ((List.range width).foldl (fun bits i => bits ||| (bytes.getD (at_ + i) 0).toNat <<< (8 * i)) 0)

def appendI64Le (out : Bytes) (value : Int) : Bytes := appendLe 8 out value
def readI64Le (bytes : Bytes) (at_ : Nat) : Int := readLe 8 bytes at_
def appendI32Le (out : Bytes) (value : Int) : Bytes := appendLe 4 out value
def readI32Le (bytes : Bytes) (at_ : Nat) : Int := readLe 4 bytes at_

/-- The two bytes of a length, of an opcode's close code. -/
def appendU16Le (out : Bytes) (value : Nat) : Bytes :=
  out ++ [UInt8.ofNat (value &&& 0xFF), UInt8.ofNat (value >>> 8 &&& 0xFF)]

def readU16Le (bytes : Bytes) (at_ : Nat) : Nat :=
  (bytes.getD at_ 0).toNat ||| (bytes.getD (at_ + 1) 0).toNat <<< 8

section
variable {width : Nat}

theorem appendLe_eq (out : Bytes) (value : Int) :
    appendLe width out value = out ++ bytes width (pattern width value) := by
  exact congrArg (out ++ ·) (map_shiftRight width (pattern width value))

theorem length_appendLe (out : Bytes) (value : Int) :
    (appendLe width out value).length = out.length + width := by
  rw [appendLe_eq, List.length_append, length_bytes]

theorem readLe_eq {b : Bytes} {at_ : Nat} (hfits : at_ + width ≤ b.length) :
    readLe width b at_ = signed width (value ((b.drop at_).take width)) := by
  have hlen : ((b.drop at_).take width).length = width := by
    rw [List.length_take, List.length_drop]
    omega
  have hset := foldl_or ((b.drop at_).take width)
  rw [hlen] at hset
  unfold readLe
  rw [← hset]
  congr 1
  refine List.foldl_ext _ _ _ fun bits i hi => ?_
  have hlt : i < width := List.mem_range.mp hi
  have hget : ((b.drop at_).take width).getD i 0 = b.getD (at_ + i) 0 := by
    rw [List.getD_eq_getElem?_getD, List.getD_eq_getElem?_getD, List.getElem?_take_of_lt hlt,
      List.getElem?_drop]
  rw [hget]

theorem two_pow_eq_byte (width : Nat) : 2 ^ (8 * width) = 256 ^ width := pow_mul 2 8 width

/-- **A word is read back,** wherever it stands. -/
theorem readLe_appendLe (hwidth : 0 < width) {v : Int} (hholds : Holds width v) (out rest : Bytes) :
    readLe width (appendLe width out v ++ rest) out.length = v := by
  have hlt : pattern width v < 256 ^ width := by
    rw [← two_pow_eq_byte]
    exact pattern_lt width v
  have hword : ((appendLe width out v ++ rest).drop out.length).take width =
      bytes width (pattern width v) := by
    rw [appendLe_eq, List.append_assoc, List.drop_left, List.take_left' (length_bytes _ _)]
  rw [readLe_eq (by rw [List.length_append, length_appendLe]; omega), hword, value_bytes hlt,
    signed_pattern hwidth hholds]

/-- **And written back.** -/
theorem appendLe_readLe (hwidth : 0 < width) {b : Bytes} {at_ : Nat} (hfits : at_ + width ≤ b.length)
    (out : Bytes) : appendLe width out (readLe width b at_) = out ++ (b.drop at_).take width := by
  have hlen : ((b.drop at_).take width).length = width := by
    rw [List.length_take, List.length_drop]
    omega
  have hlt : value ((b.drop at_).take width) < 2 ^ (8 * width) := by
    have hvalue := value_lt ((b.drop at_).take width)
    rwa [hlen, ← two_pow_eq_byte] at hvalue
  have hbytes := bytes_value ((b.drop at_).take width)
  rw [hlen] at hbytes
  rw [appendLe_eq, readLe_eq hfits, pattern_signed hwidth hlt, hbytes]

end

theorem appendU16Le_eq (out : Bytes) (value : Nat) : appendU16Le out value = out ++ bytes 2 value :=
  congrArg (out ++ ·) (map_shiftRight 2 value)

theorem length_appendU16Le (out : Bytes) (value : Nat) :
    (appendU16Le out value).length = out.length + 2 := by
  rw [appendU16Le_eq, List.length_append, length_bytes]

theorem readU16Le_eq (b0 b1 : UInt8) (before rest : Bytes) :
    readU16Le (before ++ b0 :: b1 :: rest) before.length = value [b0, b1] := by
  have h0 : (before ++ b0 :: b1 :: rest).getD before.length 0 = b0 := by simp
  have h1 : (before ++ b0 :: b1 :: rest).getD (before.length + 1) 0 = b1 := by simp
  have hset := foldl_or [b0, b1]
  unfold readU16Le
  rw [h0, h1, ← hset]
  simp [List.range_succ]

/-- **A length is read back.** -/
theorem readU16Le_appendU16Le {v : Nat} (hv : v < 65536) (out rest : Bytes) :
    readU16Le (appendU16Le out v ++ rest) out.length = v := by
  rw [appendU16Le_eq, List.append_assoc]
  exact (readU16Le_eq _ _ out rest).trans (@value_bytes 2 v hv)

/-- And written back. -/
theorem appendU16Le_readU16Le (b0 b1 : UInt8) (out before rest : Bytes) :
    appendU16Le out (readU16Le (before ++ b0 :: b1 :: rest) before.length) = out ++ [b0, b1] := by
  rw [readU16Le_eq, appendU16Le_eq]
  exact congrArg (out ++ ·) (bytes_value [b0, b1])

/-! ## Drain acks -/

def ACK_BYTES : Nat := 8
def ACK_DISCONNECT : Int := -1

def encodeAck (slot credit : Int) : Bytes := appendI32Le (appendI32Le [] slot) credit

def decodeAck (bytes : Bytes) : Int × Int := (readI32Le bytes 0, readI32Le bytes 4)

theorem decodeAck_encodeAck {slot credit : Int} (hslot : Holds 4 slot) (hcredit : Holds 4 credit) :
    decodeAck (encodeAck slot credit) = (slot, credit) := by
  have hlen : (appendI32Le [] slot).length = 4 := length_appendLe _ _
  have hfirst : readI32Le (encodeAck slot credit) 0 = slot := by
    unfold encodeAck appendI32Le
    rw [appendLe_eq]
    exact readLe_appendLe (by decide) hslot [] _
  have hsecond : readI32Le (encodeAck slot credit) 4 = credit := by
    have hread := readLe_appendLe (by decide) hcredit (appendI32Le [] slot) []
    rwa [List.append_nil, hlen] at hread
  exact Prod.ext hfirst hsecond

/-- The client is gone. -/
example : decodeAck (encodeAck 7 ACK_DISCONNECT) = (7, ACK_DISCONNECT) := by decide

/-! ## Jobs and completions -/

def JOB_BYTES : Nat := 8
def POISON : Int := -1
def POKE : Int := -2

/-- `_encode_job` -/
def encodeJob (slot : Int) : Bytes := appendI64Le [] slot

/-- `_decode_job` -/
def decodeJob (buf : Bytes) : Int := readI64Le buf 0

def TAG_JOB_BATCH : UInt8 := 4

/-- `_encode_completions` -/
def encodeCompletions (slots : List Int) : Bytes := slots.foldl appendI64Le []

/-- `_encode_job_batch` -/
def encodeJobBatch (slots : List Int) : Bytes := slots.foldl appendI64Le [TAG_JOB_BATCH]

theorem length_encodeJob (slot : Int) : (encodeJob slot).length = JOB_BYTES := length_appendLe [] slot

theorem decodeJob_encodeJob {slot : Int} (hslot : Holds 8 slot) : decodeJob (encodeJob slot) = slot := by
  have hread := readLe_appendLe (by decide) hslot [] []
  rwa [List.append_nil] at hread

theorem foldl_appendI64Le (slots : List Int) (out : Bytes) :
    slots.foldl appendI64Le out = out ++ slots.flatMap encodeJob := by
  induction slots generalizing out with
  | nil => simp
  | cons slot slots ih =>
    have hword : appendI64Le out slot = out ++ encodeJob slot := rfl
    rw [List.foldl_cons, ih, List.flatMap_cons, ← List.append_assoc, hword]

theorem length_flatMap_encodeJob (slots : List Int) :
    (slots.flatMap encodeJob).length = JOB_BYTES * slots.length := by
  induction slots with
  | nil => rfl
  | cons slot slots ih =>
    rw [List.flatMap_cons, List.length_append, length_encodeJob, ih, List.length_cons]
    ring

/-- The slots behind a head, each read at its place. -/
theorem map_readI64Le {slots : List Int} (hslots : ∀ slot ∈ slots, Holds 8 slot) (head : Bytes) :
    (List.range slots.length).map
        (fun i => readI64Le (head ++ slots.flatMap encodeJob) (head.length + JOB_BYTES * i)) = slots := by
  induction slots generalizing head with
  | nil => rfl
  | cons slot slots ih =>
    have hlen : (head ++ encodeJob slot).length = head.length + JOB_BYTES := by
      rw [List.length_append, length_encodeJob]
    have hword : encodeJob slot = appendLe 8 [] slot := rfl
    have hfirst : readI64Le (head ++ (slot :: slots).flatMap encodeJob) (head.length + JOB_BYTES * 0) =
        slot := by
      have hread := readLe_appendLe (by decide) (hslots slot List.mem_cons_self) head
        (slots.flatMap encodeJob)
      rwa [appendLe_eq, List.append_assoc, ← List.nil_append (bytes 8 _), ← appendLe_eq, ← hword,
        ← List.flatMap_cons] at hread
    have hrest := ih (fun s hs => hslots s (List.mem_cons_of_mem _ hs)) (head ++ encodeJob slot)
    rw [List.length_cons, List.range_succ_eq_map, List.map_cons, List.map_map, hfirst]
    congr 1
    refine Eq.trans (List.map_congr_left fun i _ => ?_) hrest
    show readI64Le _ (head.length + JOB_BYTES * (i + 1)) = _
    rw [List.flatMap_cons, ← List.append_assoc, hlen]
    congr 1
    ring

/-! ## Bus frames -/

/-- `_BUS_HEADER` -/
def BUS_HEADER : Nat := 10

/-- `MAX_CHANNEL` -/
def MAX_CHANNEL : Nat := 65535

/-- `encode_bus_frame`: `[event_id: 8 LE][url_len: 2 LE][url][frame]`. -/
def encodeBusFrame (url : Bytes) (eventId : Int) (frame : Bytes) : Bytes :=
  appendU16Le (appendI64Le [] eventId) url.length ++ url ++ frame

structure BusFrame where
  url : Bytes
  eventId : Int
  frame : Bytes
  deriving Repr, DecidableEq

def decodeBusFrame (datagram : Bytes) : Option BusFrame :=
  if datagram.length < BUS_HEADER then none
  else
    let eventId := readI64Le datagram 0
    let urlLen := readU16Le datagram 8
    if BUS_HEADER + urlLen > datagram.length then none
    else some ⟨(datagram.drop BUS_HEADER).take urlLen, eventId, datagram.drop (BUS_HEADER + urlLen)⟩

theorem length_encodeBusFrame (url : Bytes) (eventId : Int) (frame : Bytes) :
    (encodeBusFrame url eventId frame).length = BUS_HEADER + url.length + frame.length := by
  unfold encodeBusFrame
  rw [List.length_append, List.length_append, length_appendU16Le]
  exact congrArg (· + 2 + url.length + frame.length) (length_appendLe [] eventId)

/-- **What was encoded is decoded.** -/
theorem decodeBusFrame_encodeBusFrame {url : Bytes} (hurl : url.length ≤ MAX_CHANNEL) {eventId : Int}
    (hid : Holds 8 eventId) (frame : Bytes) :
    decodeBusFrame (encodeBusFrame url eventId frame) = some ⟨url, eventId, frame⟩ := by
  have hlen := length_encodeBusFrame url eventId frame
  have hid : readI64Le (encodeBusFrame url eventId frame) 0 = eventId := by
    unfold encodeBusFrame
    rw [appendU16Le_eq, List.append_assoc, List.append_assoc]
    exact readLe_appendLe (by decide) hid [] _
  have hurlLen : readU16Le (encodeBusFrame url eventId frame) 8 = url.length := by
    have hread := readU16Le_appendU16Le (v := url.length) (Nat.lt_succ_of_le hurl)
      (appendI64Le [] eventId) (url ++ frame)
    rw [← List.append_assoc] at hread
    exact (congrArg (readU16Le _) (length_appendLe [] eventId).symm).trans hread
  have hhead : (appendU16Le (appendI64Le [] eventId) url.length).length = BUS_HEADER := by
    rw [length_appendU16Le]
    exact congrArg (· + 2) (length_appendLe [] eventId)
  have hname : ((encodeBusFrame url eventId frame).drop BUS_HEADER).take url.length = url := by
    unfold encodeBusFrame
    rw [List.append_assoc, List.drop_left' hhead, List.take_left]
  have hframe : (encodeBusFrame url eventId frame).drop (BUS_HEADER + url.length) = frame := by
    unfold encodeBusFrame
    exact List.drop_left' (by rw [List.length_append, hhead])
  unfold decodeBusFrame
  rw [if_neg (by omega)]
  dsimp only
  rw [hurlLen, if_neg (by omega), hid, hname, hframe]

/-- **What is decoded is an encoding.** -/
theorem encodeBusFrame_of_decodeBusFrame {datagram : Bytes} {f : BusFrame}
    (h : decodeBusFrame datagram = some f) :
    encodeBusFrame f.url f.eventId f.frame = datagram := by
  unfold decodeBusFrame at h
  split at h
  · cases h
  · next hheader =>
    dsimp only at h
    split at h
    · cases h
    · next hfits =>
      cases h
      have hword : 8 ≤ datagram.length := by
        unfold BUS_HEADER at hheader
        omega
      -- the id, the two bytes of the length, and the rest
      have hid : appendI64Le [] (readI64Le datagram 0) = datagram.take 8 :=
        appendLe_readLe (by decide) (by omega) []
      obtain ⟨b0, b1, rest, hrest⟩ : ∃ b0 b1 rest, datagram.drop 8 = b0 :: b1 :: rest := by
        have hlen : 2 ≤ (datagram.drop 8).length := by
          rw [List.length_drop]
          unfold BUS_HEADER at hheader
          omega
        cases hdrop : datagram.drop 8 with
        | nil => rw [hdrop] at hlen; simp at hlen
        | cons b0 tail =>
          cases tail with
          | nil => rw [hdrop] at hlen; simp at hlen
          | cons b1 rest => exact ⟨b0, b1, rest, rfl⟩
      have hsplit : datagram = datagram.take 8 ++ b0 :: b1 :: rest := by
        rw [← hrest, List.take_append_drop]
      have htake : (datagram.take 8).length = 8 := List.length_take_of_le hword
      have hlen : appendU16Le (datagram.take 8) (readU16Le datagram 8) = datagram.take 8 ++ [b0, b1] := by
        have hback := appendU16Le_readU16Le b0 b1 (datagram.take 8) (datagram.take 8) rest
        rwa [← hsplit, htake] at hback
      have hbehind : datagram.drop BUS_HEADER = rest := by
        have hdrop : datagram.drop BUS_HEADER = (datagram.drop 8).drop 2 := by
          rw [List.drop_drop]
          rfl
        rw [hdrop, hrest]
        rfl
      have hname : ((datagram.drop BUS_HEADER).take (readU16Le datagram 8)).length =
          readU16Le datagram 8 := by
        rw [List.length_take, List.length_drop]
        omega
      unfold encodeBusFrame
      dsimp only
      rw [hname, hid, hlen, ← List.drop_drop, List.append_assoc, List.take_append_drop, hbehind,
        List.append_assoc]
      exact hsplit.symm

end MojoHttp.Wire
