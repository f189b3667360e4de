import MojoHttp.WebSocket.Bounds

/-!
# WebSocket receive decodes what a client may send

A client sends messages, each cut into fragments as it likes, and puts pings and pongs anywhere
between frames. What it sends is a list of masked frames; what the parser is to make of them is
written down on the messages themselves.

* **`ClientFrame`**, **`Item`** — the frames, and the messages and control frames they are made of.
* **`readFrame_encode`** — a frame reads back, in each of the three forms of its length.
* **`Takes`** — what a list of frames does to the parser; `takes_items` is what the items' frames do.
* **`decodes_iff`** — the messages are delivered and the pings answered.
-/

namespace MojoHttp.Receive

open Resumable Rfc3629

/-! ## What a client sends -/

/-- `encode_ws_frame_masked`: a masked client frame. -/
def encodeWsFrameMasked (opcode : Nat) (payload mask : Bytes) : Bytes :=
  frameHeader opcode payload.length true ++ (List.range 4).map (fun i => mask.getD i 0) ++
    payload.mapIdx fun i b => b ^^^ mask.getD (i % 4) 0

structure ClientFrame where
  fin : Bool
  opcode : Nat
  payload : Bytes
  mask : Bytes
  deriving Repr, DecidableEq

/-- A client's frame (RFC 6455 §5.2): FIN or not, the length in the shortest of its three forms, the
mask, and the payload masked byte by byte. -/
def ClientFrame.encode (f : ClientFrame) : Bytes :=
  toByte ((if f.fin then 0x80 else 0) ||| (f.opcode &&& 0x0F)) ::
    ((frameHeader f.opcode f.payload.length true).drop 1 ++
      (f.mask ++ f.payload.mapIdx fun i b => b ^^^ f.mask.getD (i % 4) 0))

/-- A piece of a message, and the mask it goes out under. -/
structure Fragment where
  payload : Bytes
  mask : Bytes
  deriving Repr, DecidableEq

inductive Control where
  | ping (payload mask : Bytes)
  | pong (payload mask : Bytes)
  deriving Repr, DecidableEq

def Control.payload : Control → Bytes
  | .ping payload _ => payload
  | .pong payload _ => payload

def Control.frame : Control → ClientFrame
  | .ping payload mask => ⟨true, WS_OP_PING, payload, mask⟩
  | .pong payload mask => ⟨true, WS_OP_PONG, payload, mask⟩

/-- A message in its fragments; in front of each but the first, the control frames put there. -/
structure ClientMessage where
  opcode : Nat
  first : Fragment
  rest : List (List Control × Fragment)
  deriving Repr, DecidableEq

def ClientMessage.payload (m : ClientMessage) : Bytes := m.first.payload ++ m.rest.flatMap (·.2.payload)

/-- The continuation frames; the last has FIN. -/
def contFrames : List (List Control × Fragment) → List ClientFrame
  | [] => []
  | (controls, fragment) :: rest =>
    controls.map Control.frame ++
      ⟨rest.isEmpty, WS_OP_CONT, fragment.payload, fragment.mask⟩ :: contFrames rest

def ClientMessage.frames (m : ClientMessage) : List ClientFrame :=
  ⟨m.rest.isEmpty, m.opcode, m.first.payload, m.first.mask⟩ :: contFrames m.rest

inductive Item where
  | control (c : Control)
  | message (m : ClientMessage)
  deriving Repr, DecidableEq

def Item.frames : Item → List ClientFrame
  | .control c => [c.frame]
  | .message m => m.frames

/-- The bytes a client puts on the wire. -/
def clientWire (items : List Item) : Bytes := (items.flatMap Item.frames).flatMap ClientFrame.encode

/-! ## What the parser is to make of it -/

def Control.ping? : Control → List Bytes
  | .ping payload _ => [payload]
  | .pong _ _ => []

def Item.messages : Item → List (Nat × Bytes)
  | .control _ => []
  | .message m => [(m.opcode, m.payload)]

/-- The payloads of the pings, in order. -/
def Item.pings : Item → List Bytes
  | .control c => c.ping?
  | .message m => m.rest.flatMap fun r => r.1.flatMap Control.ping?

/-- The Pongs that answer pings. -/
def pongs (pings : List Bytes) : Bytes := pings.flatMap (encodeWsFrame WS_OP_PONG)

/-- What a client may send: control frames of at most 125 bytes, messages of at most
`maxMessageSize`, text that is UTF-8, and masks of four bytes. -/
structure Fragment.Ok (f : Fragment) : Prop where
  mask : f.mask.length = 4

def Control.Ok : Control → Prop
  | .ping payload mask => payload.length ≤ 125 ∧ mask.length = 4
  | .pong payload mask => payload.length ≤ 125 ∧ mask.length = 4

structure ClientMessage.Ok (maxMessageSize : Nat) (m : ClientMessage) : Prop where
  opcode : m.opcode = WS_OP_TEXT ∨ m.opcode = WS_OP_BINARY
  length : m.payload.length ≤ maxMessageSize
  text : m.opcode = WS_OP_TEXT → Octets m.payload
  first : m.first.Ok
  rest : ∀ r ∈ m.rest, (∀ c ∈ r.1, c.Ok) ∧ r.2.Ok

def Item.Ok (maxMessageSize : Nat) : Item → Prop
  | .control c => c.Ok
  | .message m => m.Ok maxMessageSize

/-! ## A frame reads back -/

/-- A frame whose header is in order: short, or within the cap on messages. -/
structure ClientFrame.Formed (maxMessageSize : Nat) (f : ClientFrame) : Prop where
  opcode : f.opcode < 16
  length : f.payload.length ≤ 125 ∨ f.payload.length ≤ maxMessageSize
  control : f.opcode ≥ 0x8 → f.payload.length ≤ 125
  mask : f.mask.length = 4

theorem ClientFrame.encode_eq_masked {f : ClientFrame} (hfin : f.fin = true) (hmask : f.mask.length = 4) :
    f.encode = encodeWsFrameMasked f.opcode f.payload f.mask := by
  have hfour : (List.range 4).map (fun i => f.mask.getD i 0) = f.mask := by
    refine List.ext_getElem (by simp [hmask]) fun i _ hi => ?_
    simp [hi]
  rw [encode, encodeWsFrameMasked, hfour, hfin]
  unfold frameHeader
  simp

/-- The length bytes of a frame whose payload has `n` bytes. -/
theorem frameHeader_drop_one (opcode n : Nat) : (frameHeader opcode n true).drop 1 =
    if n ≤ 125 then [toByte (0x80 ||| n)]
    else if n ≤ 0xFFFF then
      [toByte (0x80 ||| 126), toByte ((n >>> 8) &&& 0xFF), toByte (n &&& 0xFF)]
    else
      toByte (0x80 ||| 127) ::
        [56, 48, 40, 32, 24, 16, 8, 0].map fun shift => toByte ((n >>> shift) &&& 0xFF) := rfl

theorem toNat_toByte_and (n : Nat) : (toByte (n &&& 0xFF)).toNat = n % 256 := by
  rw [show (0xFF : Nat) = 2 ^ 8 - 1 from rfl, Nat.and_two_pow_sub_one_eq_mod,
    toByte_toNat (Nat.mod_lt n (by decide))]

/-- One byte more of `plen64`. -/
theorem toNat_shift_or {v : UInt64} {b : UInt8} (hv : v.toNat < 2 ^ 56) :
    ((v <<< 8) ||| b.toUInt64).toNat = v.toNat * 256 + b.toNat := by
  have hb := b.toNat_lt
  rw [UInt64.toNat_or, UInt64.toNat_shiftLeft, UInt8.toNat_toUInt64]
  show (v.toNat <<< 8) % 2 ^ 64 ||| b.toNat = _
  rw [Nat.shiftLeft_eq, Nat.mod_eq_of_lt (by omega), ← Nat.shiftLeft_eq,
    ← Nat.shiftLeft_add_eq_or_of_lt hb, Nat.shiftLeft_eq]

/-- **The eight bytes of a long length are the length.** -/
theorem plen64At_encode {n : Nat} (hn : n < 2 ^ 63) (pre rest : Bytes) :
    (plen64At (pre ++ ([56, 48, 40, 32, 24, 16, 8, 0].map fun shift =>
      toByte ((n >>> shift) &&& 0xFF)) ++ rest) pre.length).toNat = n := by
  have hbyte : ∀ j shift, [56, 48, 40, 32, 24, 16, 8, 0][j]? = some shift →
      (pre ++ ([56, 48, 40, 32, 24, 16, 8, 0].map fun shift => toByte ((n >>> shift) &&& 0xFF)) ++
        rest).getD (pre.length + j) 0 = toByte ((n >>> shift) &&& 0xFF) := by
    intro j shift hj
    have hlt := (List.getElem?_eq_some_iff.mp hj).1
    rw [List.getD_eq_getElem?_getD, List.append_assoc, List.getElem?_append_right (by omega),
      Nat.add_sub_cancel_left, List.getElem?_append_left (by rw [List.length_map]; exact hlt),
      List.getElem?_map, hj]
    rfl
  unfold plen64At
  rw [show List.range 8 = [0, 1, 2, 3, 4, 5, 6, 7] from rfl]
  simp only [List.foldl_cons, List.foldl_nil]
  rw [hbyte 0 56 rfl, hbyte 1 48 rfl, hbyte 2 40 rfl, hbyte 3 32 rfl, hbyte 4 24 rfl, hbyte 5 16 rfl,
    hbyte 6 8 rfl, hbyte 7 0 rfl]
  -- byte by byte: what has been read is the length shifted right
  have hstep : ∀ (v : UInt64) (shift : Nat), v.toNat = n >>> (shift + 8) →
      ((v <<< 8) ||| (toByte ((n >>> shift) &&& 0xFF)).toUInt64).toNat = n >>> shift := by
    intro v shift hv
    have hdiv : n >>> (shift + 8) = n >>> shift / 256 := by
      rw [Nat.shiftRight_add, Nat.shiftRight_eq_div_pow _ 8]
    have hle : n >>> shift ≤ n := by
      rw [Nat.shiftRight_eq_div_pow]
      exact Nat.div_le_self _ _
    rw [toNat_shift_or (by rw [hv, hdiv]; omega), toNat_toByte_and, hv, hdiv]
    omega
  have hzero : (0 : UInt64).toNat = n >>> (56 + 8) := by
    rw [Nat.shiftRight_eq_div_pow, Nat.div_eq_of_lt (by omega)]
    rfl
  exact hstep _ 0 (hstep _ 8 (hstep _ 16 (hstep _ 24 (hstep _ 32 (hstep _ 40 (hstep _ 48
    (hstep _ 56 hzero)))))))

/-- Masking twice under one mask changes nothing. -/
theorem unmask_mask (payload mask : Bytes) :
    unmaskPayload (payload.mapIdx fun i b => b ^^^ mask.getD (i % 4) 0) mask = payload := by
  rw [unmaskPayload_eq, List.mapIdx_mapIdx]
  refine List.ext_getElem? fun i => ?_
  rw [List.getElem?_mapIdx]
  cases payload[i]? with
  | none => rfl
  | some b => simp [UInt8.xor_assoc]

/-- What stands behind a header that says how long the payload is. -/
theorem readFrame_of_length {maxMessageSize header opcode b0 b1 : Nat} {hd mask masked : Bytes} {fin : Bool}
    (hhd : hd.length = header) (hheader : 2 ≤ header)
    (hb0 : (hd.getD 0 0).toNat = b0) (hb1 : (hd.getD 1 0).toNat = b1)
    (hrsv : b0 &&& 0x70 = 0) (hop : b0 &&& 0x0F = opcode) (hfin : decide (b0 &&& 0x80 ≠ 0) = fin)
    (hmask : b1 &&& 0x80 ≠ 0) (hfour : mask.length = 4) (rest : Bytes)
    (hread : readLength maxMessageSize (hd ++ (mask ++ (masked ++ rest))) 0 opcode b1 =
      .length header masked.length)
    (hcontrol : opcode ≥ 0x8 → masked.length ≤ 125) :
    readFrame maxMessageSize (hd ++ (mask ++ (masked ++ rest))) 0 =
      if masked.length ≤ maxMessageSize then
        .frame fin opcode (unmaskPayload masked mask) (header + 4 + masked.length)
      else .bad WS_CLOSE_TOO_BIG := by
  have hlen : (hd ++ (mask ++ (masked ++ rest))).length = header + 4 + masked.length + rest.length := by
    simp [hhd, hfour]
    omega
  have h0 : ((hd ++ (mask ++ (masked ++ rest))).getD 0 0).toNat = b0 := by
    rw [getD_append_of_lt _ (by omega), hb0]
  have h1 : ((hd ++ (mask ++ (masked ++ rest))).getD (0 + 1) 0).toNat = b1 := by
    rw [getD_append_of_lt _ (by omega)]
    exact hb1
  have hmaskAt : slice (hd ++ (mask ++ (masked ++ rest))) (0 + header) (0 + header + 4) = mask := by
    rw [slice, Nat.zero_add, ← hhd, List.drop_left, Nat.add_sub_cancel_left, ← hfour, List.take_left]
  have hpayload : slice (hd ++ (mask ++ (masked ++ rest))) (0 + header + 4)
      (0 + header + 4 + masked.length) = masked := by
    rw [slice, Nat.zero_add, Nat.add_sub_cancel_left, ← hhd, ← hfour, ← List.drop_drop, List.drop_left,
      List.drop_left, List.take_left]
  unfold readFrame
  dsimp only
  rw [h0, h1, hop, hlen, if_neg (by omega), if_neg (not_not.mpr hrsv), if_neg hmask, hread]
  dsimp only
  rw [if_neg (fun h => by have := hcontrol h.1; omega)]
  by_cases hmax : masked.length ≤ maxMessageSize
  · rw [if_neg (by omega), if_neg (by omega), hmaskAt, hpayload, hfin, if_pos hmax]
  · rw [if_pos (by omega), if_neg hmax]

/-- The first byte says FIN and opcode. -/
theorem firstByte_spec (fin : Bool) {opcode : Nat} (hop : opcode < 16) :
    let b0 := (toByte ((if fin then 0x80 else 0) ||| (opcode &&& 0x0F))).toNat
    b0 &&& 0x70 = 0 ∧ b0 &&& 0x0F = opcode ∧ decide (b0 &&& 0x80 ≠ 0) = fin := by
  have hall : ∀ fin : Bool, ∀ opcode < 16,
      let b0 := (toByte ((if fin then 0x80 else 0) ||| (opcode &&& 0x0F))).toNat
      b0 &&& 0x70 = 0 ∧ b0 &&& 0x0F = opcode ∧ decide (b0 &&& 0x80 ≠ 0) = fin := by decide
  exact hall fin opcode hop

/-- The bytes of a header behind the first: MASK is set, and the length reads back in each of its
three forms. -/
theorem readLength_header {maxMessageSize opcode n : Nat} (b0 : UInt8) (tail : Bytes)
    (hmax : maxMessageSize < 2 ^ 63) (hn : n ≤ 125 ∨ n ≤ maxMessageSize)
    (hcontrol : opcode ≥ 0x8 → n ≤ 125) :
    let hd := b0 :: (frameHeader opcode n true).drop 1
    2 ≤ hd.length ∧ (hd.getD 1 0).toNat &&& 0x80 ≠ 0 ∧
      readLength maxMessageSize (hd ++ tail) 0 opcode (hd.getD 1 0).toNat = .length hd.length n := by
  rw [frameHeader_drop_one]
  by_cases hshort : n ≤ 125
  · -- the length stands in the second byte
    have hall : ∀ n ≤ 125, (toByte (0x80 ||| n)).toNat &&& 0x7F = n ∧
        (toByte (0x80 ||| n)).toNat &&& 0x80 ≠ 0 := by decide
    obtain ⟨hb1, hbit⟩ := hall n hshort
    rw [if_pos hshort]
    refine ⟨le_rfl, hbit, ?_⟩
    show readLength maxMessageSize _ 0 opcode (toByte (0x80 ||| n)).toNat = .length 2 n
    unfold readLength
    dsimp only
    rw [hb1, if_neg (by omega), if_neg (by omega)]
  · rw [if_neg hshort]
    by_cases hmid : n ≤ 0xFFFF
    · -- two bytes of it follow
      have hhi : (toByte ((n >>> 8) &&& 0xFF)).toNat = n >>> 8 := by
        rw [toNat_toByte_and, Nat.shiftRight_eq_div_pow]
        exact Nat.mod_eq_of_lt (by omega)
      have hlo := toNat_toByte_and n
      have hsum : n >>> 8 <<< 8 ||| n % 256 = n := by
        rw [← Nat.shiftLeft_add_eq_or_of_lt (Nat.mod_lt n (by decide) : n % 256 < 2 ^ 8),
          Nat.shiftLeft_eq, Nat.shiftRight_eq_div_pow]
        omega
      rw [if_pos hmid]
      refine ⟨(by decide : 2 ≤ 4), (by decide : (toByte (0x80 ||| 126)).toNat &&& 0x80 ≠ 0), ?_⟩
      show readLength maxMessageSize
        (b0 :: toByte (0x80 ||| 126) :: toByte ((n >>> 8) &&& 0xFF) :: toByte (n &&& 0xFF) :: tail) 0 opcode
          (toByte (0x80 ||| 126)).toNat = .length 4 n
      unfold readLength
      dsimp only
      rw [if_pos (by decide), if_neg (by simp)]
      show (if (toByte ((n >>> 8) &&& 0xFF)).toNat <<< 8 ||| (toByte (n &&& 0xFF)).toNat < 126 then _
        else FrameLength.length 4
          ((toByte ((n >>> 8) &&& 0xFF)).toNat <<< 8 ||| (toByte (n &&& 0xFF)).toNat)) = _
      rw [hhi, hlo, hsum, if_neg (by omega)]
    · -- eight bytes of it follow
      have hplen := plen64At_encode (by omega : n < 2 ^ 63) [b0, toByte (0x80 ||| 127)] tail
      rw [if_neg hmid]
      refine ⟨(by decide : 2 ≤ 10), (by decide : (toByte (0x80 ||| 127)).toNat &&& 0x80 ≠ 0), ?_⟩
      show readLength maxMessageSize
        ([b0, toByte (0x80 ||| 127)] ++ ([56, 48, 40, 32, 24, 16, 8, 0].map fun shift =>
          toByte ((n >>> shift) &&& 0xFF)) ++ tail) 0 opcode (toByte (0x80 ||| 127)).toNat = .length 10 n
      unfold readLength
      dsimp only
      rw [if_neg (by decide), if_pos (by decide), if_neg (by simp)]
      generalize plen64At _ (0 + 2) = plen64 at hplen ⊢
      have hplen : plen64.toNat = n := hplen
      have htop : plen64 >>> 63 = 0 := by
        refine UInt64.toNat_inj.mp ?_
        rw [UInt64.toNat_shiftRight, hplen]
        show n >>> 63 = 0
        rw [Nat.shiftRight_eq_div_pow, Nat.div_eq_of_lt (by omega)]
      have hcap : ¬ plen64 > UInt64.ofInt maxMessageSize := by
        rw [gt_iff_lt, UInt64.lt_iff_toNat_lt, hplen]
        have hof : (UInt64.ofInt (maxMessageSize : Int)).toNat = maxMessageSize := by
          have hval : ((maxMessageSize : Int) % 2 ^ 64).toNat = maxMessageSize := by omega
          rw [UInt64.ofInt, hval, UInt64.toNat_ofNat', Nat.mod_eq_of_lt (by omega)]
        omega
      rw [if_neg (by rw [htop, UInt64.le_iff_toNat_le, hplen]; simp; omega), if_neg (by omega),
        if_neg hcap, hplen]

/-- **A frame reads back**, whatever follows it, when its payload is within the cap on messages; the
cap is not asked of messages only. -/
theorem readFrame_encode {maxMessageSize : Nat} {f : ClientFrame} (hf : f.Formed maxMessageSize)
    (hmax : maxMessageSize < 2 ^ 63) (rest : Bytes) :
    readFrame maxMessageSize (f.encode ++ rest) 0 =
      if f.payload.length ≤ maxMessageSize then .frame f.fin f.opcode f.payload f.encode.length
      else .bad WS_CLOSE_TOO_BIG := by
  obtain ⟨fin, opcode, payload, mask⟩ := f
  obtain ⟨hop, hlen, hcontrol, hfour⟩ := hf
  dsimp only at hop hlen hcontrol hfour
  obtain ⟨hrsv, hopcode, hfin⟩ := firstByte_spec fin hop
  have hunmask := unmask_mask payload mask
  have hmasked : (payload.mapIdx fun i b => b ^^^ mask.getD (i % 4) 0).length = payload.length :=
    List.length_mapIdx
  unfold ClientFrame.encode
  dsimp only
  generalize payload.mapIdx (fun i b => b ^^^ mask.getD (i % 4) 0) = masked at hmasked hunmask ⊢
  rw [← hmasked] at hlen hcontrol ⊢
  obtain ⟨htwo, hbit, hread⟩ := readLength_header
    (toByte ((if fin then 0x80 else 0) ||| (opcode &&& 0x0F))) (mask ++ (masked ++ rest)) hmax hlen hcontrol
  have hframe := readFrame_of_length rfl htwo rfl rfl hrsv hopcode hfin hbit hfour rest hread hcontrol
  rw [hunmask] at hframe
  rw [List.cons_append, List.append_assoc, List.append_assoc, ← List.cons_append, hframe]
  congr 2
  simp [hfour]
  omega

/-! ## What the frames do -/

/-- The parser between two frames: the message in progress, nothing left to parse. -/
def between (maxMessageSize : Nat) (frag : Option (Nat × Bytes)) : WSState :=
  ⟨[], frag.map Prod.fst, (frag.map Prod.snd).getD [], maxMessageSize⟩

/-- A list of frames takes the parser from one message in progress to another, without a close, and
adds `rs` to the result. -/
inductive Takes (maxMessageSize : Nat) :
    Option (Nat × Bytes) → List ClientFrame → Option (Nat × Bytes) → List WSParseResult → Prop
  | nil {frag : Option (Nat × Bytes)} : Takes maxMessageSize frag [] frag []
  | cons {frag frag' frag'' : Option (Nat × Bytes)} {f : ClientFrame} {fs : List ClientFrame}
      {r : WSParseResult} {rs : List WSParseResult} :
    f.Formed maxMessageSize → f.payload.length ≤ maxMessageSize →
    takeFrame (between maxMessageSize frag) {} f.fin f.opcode f.payload =
      .again (between maxMessageSize frag') r →
    Takes maxMessageSize frag' fs frag'' rs → Takes maxMessageSize frag (f :: fs) frag'' (r :: rs)

/-- A list of frames leads to one whose payload is over the cap. -/
inductive Refuses (maxMessageSize : Nat) : Option (Nat × Bytes) → List ClientFrame → Prop
  | here {frag : Option (Nat × Bytes)} {f : ClientFrame} {fs : List ClientFrame} :
    f.Formed maxMessageSize → maxMessageSize < f.payload.length → Refuses maxMessageSize frag (f :: fs)
  | later {frag frag' : Option (Nat × Bytes)} {f : ClientFrame} {fs : List ClientFrame}
      {r : WSParseResult} :
    f.Formed maxMessageSize → f.payload.length ≤ maxMessageSize →
    takeFrame (between maxMessageSize frag) {} f.fin f.opcode f.payload =
      .again (between maxMessageSize frag') r →
    Refuses maxMessageSize frag' fs → Refuses maxMessageSize frag (f :: fs)

section Takes

variable {maxMessageSize : Nat} {frag frag' frag'' : Option (Nat × Bytes)} {fs gs : List ClientFrame}
  {rs qs : List WSParseResult}

theorem Takes.append (h : Takes maxMessageSize frag fs frag' rs)
    (h' : Takes maxMessageSize frag' gs frag'' qs) :
    Takes maxMessageSize frag (fs ++ gs) frag'' (rs ++ qs) := by
  induction h with
  | nil => exact h'
  | cons hf hlen htake _ ih => exact .cons hf hlen htake (ih h')

theorem Takes.refuses (h : Takes maxMessageSize frag fs frag' rs) (h' : Refuses maxMessageSize frag' gs) :
    Refuses maxMessageSize frag (fs ++ gs) := by
  induction h with
  | nil => exact h'
  | cons hf hlen htake _ ih => exact .later hf hlen htake (ih h')

theorem Refuses.append (h : Refuses maxMessageSize frag fs) (gs : List ClientFrame) :
    Refuses maxMessageSize frag (fs ++ gs) := by
  induction h with
  | here hf hlen => exact .here hf hlen
  | later hf hlen htake _ ih => exact .later hf hlen htake ih

/-- A frame within the cap is one act of the machine. -/
theorem run_encode {f : ClientFrame} {r : WSParseResult} (hmax : maxMessageSize < 2 ^ 63)
    (hf : f.Formed maxMessageSize) (hlen : f.payload.length ≤ maxMessageSize)
    (htake : takeFrame (between maxMessageSize frag) {} f.fin f.opcode f.payload =
      .again (between maxMessageSize frag') r) (rest : Bytes) :
    frames.run (between maxMessageSize frag) (f.encode ++ rest) =
      (frames.run (between maxMessageSize frag') rest).after [r] := by
  have hread : readFrame (between maxMessageSize frag).maxMessageSize (f.encode ++ rest) 0 =
      .frame f.fin f.opcode f.payload f.encode.length := by
    refine (readFrame_encode hf hmax rest).trans ?_
    rw [if_pos hlen]
  rw [Machine.run_eq frames_isResumable, frames_step_again hread htake]
  dsimp only
  rw [List.drop_left]
  rfl

/-- **The machine runs over the bytes of frames it takes.** -/
theorem Takes.run (h : Takes maxMessageSize frag fs frag' rs) (hmax : maxMessageSize < 2 ^ 63) :
    frames.run (between maxMessageSize frag) (fs.flatMap ClientFrame.encode) =
      .waiting (between maxMessageSize frag') [] rs := by
  induction h with
  | nil =>
    rw [Machine.run_eq frames_isResumable, List.flatMap_nil, frames_step_short rfl]
  | cons hf hlen htake _ ih =>
    rw [List.flatMap_cons, run_encode hmax hf hlen htake, ih]
    rfl

/-- **It closes on frames that lead to one over the cap.** -/
theorem Refuses.run (h : Refuses maxMessageSize frag fs) (hmax : maxMessageSize < 2 ^ 63) :
    (collect (frames.run (between maxMessageSize frag) (fs.flatMap ClientFrame.encode))).closeAfterReply =
      true := by
  induction h with
  | @here frag f fs hf hlen =>
    have hread : readFrame (between maxMessageSize frag).maxMessageSize
        (f.encode ++ fs.flatMap ClientFrame.encode) 0 = .bad WS_CLOSE_TOO_BIG := by
      refine (readFrame_encode hf hmax _).trans ?_
      rw [if_neg (by omega)]
    rw [List.flatMap_cons, Machine.run_eq frames_isResumable, frames_step_bad hread]
    rfl
  | later hf hlen htake _ ih =>
    rw [List.flatMap_cons, run_encode hmax hf hlen htake, collect_after]
    exact ih

end Takes

/-- What the results of the frames add up to. -/
def total (rs : List WSParseResult) : WSParseResult := rs.foldr .append {}

theorem total_append (rs qs : List WSParseResult) : total (rs ++ qs) = (total rs).append (total qs) := by
  rw [total, List.foldr_append, WSParseResult.foldr_append]
  rfl

/-- Messages delivered and pings answered, and nothing closed. -/
def delivers (messages : List (Nat × Bytes)) (pings : List Bytes) : WSParseResult where
  msgOpcodes := messages.map Prod.fst
  msgPayloads := messages.map Prod.snd
  reply := pongs pings

theorem delivers_append (ms ms' : List (Nat × Bytes)) (ps ps' : List Bytes) :
    (delivers ms ps).append (delivers ms' ps') = delivers (ms ++ ms') (ps ++ ps') := by
  simp [delivers, WSParseResult.append, pongs]

theorem total_delivers (ms : List (Nat × Bytes)) (ps : List Bytes) :
    total [delivers ms ps] = delivers ms ps := by
  have h := delivers_append ms [] ps []
  rwa [List.append_nil, List.append_nil] at h

/-! ## The frames of the items -/

section Frames

variable {maxMessageSize : Nat} {frag : Option (Nat × Bytes)}

theorem Control.formed {c : Control} (hc : c.Ok) : c.frame.Formed maxMessageSize := by
  cases c with
  | ping payload mask => exact ⟨(by decide : 9 < 16), .inl hc.1, fun _ => hc.1, hc.2⟩
  | pong payload mask => exact ⟨(by decide : 10 < 16), .inl hc.1, fun _ => hc.1, hc.2⟩

/-- A control frame within the cap, at any point of a message. -/
theorem takes_control {c : Control} (hc : c.Ok) (hlen : c.payload.length ≤ maxMessageSize) :
    Takes maxMessageSize frag [c.frame] frag [delivers [] c.ping?] := by
  cases c with
  | ping payload mask =>
    refine .cons (Control.formed hc) hlen ?_ .nil
    show Taken.again _ { reply := [] ++ encodeWsFrame WS_OP_PONG payload } = _
    simp [delivers, pongs, Control.ping?]
  | pong payload mask => exact .cons (Control.formed hc) hlen rfl .nil

/-- Control frames within the cap: the pings are answered. -/
theorem takes_controls (frag : Option (Nat × Bytes)) {cs : List Control} (hcs : ∀ c ∈ cs, c.Ok)
    (hlen : ∀ c ∈ cs, c.payload.length ≤ maxMessageSize) :
    ∃ rs, Takes maxMessageSize frag (cs.map Control.frame) frag rs ∧
      total rs = delivers [] (cs.flatMap Control.ping?) := by
  induction cs with
  | nil => exact ⟨[], .nil, rfl⟩
  | cons c cs ih =>
    obtain ⟨rs, htakes, htotal⟩ := ih (fun c hc => hcs c (List.mem_cons_of_mem _ hc))
      fun c hc => hlen c (List.mem_cons_of_mem _ hc)
    refine ⟨[_] ++ rs, (takes_control (hcs c List.mem_cons_self)
      (hlen c List.mem_cons_self)).append htakes, ?_⟩
    rw [total_append, htotal, total_delivers, delivers_append]
    rfl

/-- A control frame over the cap is refused. -/
theorem refuses_controls {cs : List Control} (hcs : ∀ c ∈ cs, c.Ok)
    (hbig : ∃ c ∈ cs, maxMessageSize < c.payload.length) :
    Refuses maxMessageSize frag (cs.map Control.frame) := by
  induction cs with
  | nil =>
    obtain ⟨c, hc, -⟩ := hbig
    cases hc
  | cons c cs ih =>
    have hc := hcs c List.mem_cons_self
    by_cases hlen : c.payload.length ≤ maxMessageSize
    · refine (takes_control hc hlen).refuses (ih (fun c hc => hcs c (List.mem_cons_of_mem _ hc)) ?_)
      obtain ⟨d, hd, hbig⟩ := hbig
      rcases List.mem_cons.mp hd with rfl | hd
      · omega
      · exact ⟨d, hd, hbig⟩
    · refine .here (Control.formed hc) ?_
      cases c with
      | ping payload mask => exact Nat.lt_of_not_le hlen
      | pong payload mask => exact Nat.lt_of_not_le hlen

section Message

variable {opcode : Nat} {acc payload mask : Bytes}

/-- A fragment that ends no message. -/
theorem takes_more (hmask : mask.length = 4)
    (hlen : (acc ++ payload).length ≤ maxMessageSize) :
    Takes maxMessageSize (some (opcode, acc)) [⟨false, WS_OP_CONT, payload, mask⟩]
      (some (opcode, acc ++ payload)) [delivers [] []] := by
  have hpart : payload.length ≤ maxMessageSize := by
    rw [List.length_append] at hlen
    omega
  refine .cons ⟨(by decide : 0 < 16), .inr hpart, fun h => absurd h (by decide : ¬ WS_OP_CONT ≥ 0x8), hmask⟩ hpart ?_ .nil
  have hsize : ¬ ((acc.length + payload.length : Nat) : Int) > maxMessageSize := by
    rw [List.length_append] at hlen
    omega
  show takeCont (between maxMessageSize (some (opcode, acc))) {} false payload = _
  unfold takeCont
  show (if ((acc.length + payload.length : Nat) : Int) > maxMessageSize then _ else _) = _
  rw [if_neg hsize]
  rfl

/-- The fragment that ends a message. -/
theorem takes_last (hmask : mask.length = 4) (hlen : (acc ++ payload).length ≤ maxMessageSize)
    (htext : opcode = WS_OP_TEXT → Octets (acc ++ payload)) :
    Takes maxMessageSize (some (opcode, acc)) [⟨true, WS_OP_CONT, payload, mask⟩] none
      [delivers [(opcode, acc ++ payload)] []] := by
  have hpart : payload.length ≤ maxMessageSize := by
    rw [List.length_append] at hlen
    omega
  refine .cons ⟨(by decide : 0 < 16), .inr hpart, fun h => absurd h (by decide : ¬ WS_OP_CONT ≥ 0x8), hmask⟩ hpart ?_ .nil
  have hsize : ¬ ((acc.length + payload.length : Nat) : Int) > maxMessageSize := by
    rw [List.length_append] at hlen
    omega
  have hvalid : ¬ (opcode = WS_OP_TEXT ∧ (!isValidUtf8 (acc ++ payload)) = true) := by
    rintro ⟨heq, hbad⟩
    rw [(isValidUtf8_exact _).1.mpr (htext heq)] at hbad
    cases hbad
  show takeCont (between maxMessageSize (some (opcode, acc))) {} true payload = _
  unfold takeCont
  show (if ((acc.length + payload.length : Nat) : Int) > maxMessageSize then _ else
    if opcode = WS_OP_TEXT ∧ (!isValidUtf8 (acc ++ payload)) = true then _ else _) = _
  rw [if_neg hsize, if_neg hvalid]
  rfl

/-- The frames behind a message's first. -/
theorem takes_contFrames {rest : List (List Control × Fragment)} (hrest : rest ≠ []) (hok : ∀ r ∈ rest, (∀ c ∈ r.1, c.Ok) ∧ r.2.Ok)
    (hfit : ∀ r ∈ rest, ∀ c ∈ r.1, c.payload.length ≤ maxMessageSize)
    (hlen : (acc ++ rest.flatMap (·.2.payload)).length ≤ maxMessageSize)
    (htext : opcode = WS_OP_TEXT → Octets (acc ++ rest.flatMap (·.2.payload))) :
    ∃ rs, Takes maxMessageSize (some (opcode, acc)) (contFrames rest) none rs ∧
      total rs = delivers [(opcode, acc ++ rest.flatMap (·.2.payload))]
        (rest.flatMap fun r => r.1.flatMap Control.ping?) := by
  induction rest generalizing acc with
  | nil => exact absurd rfl hrest
  | cons r rest ih =>
    obtain ⟨cs, fragment⟩ := r
    obtain ⟨hcs, hfragment⟩ := hok _ List.mem_cons_self
    obtain ⟨rs, htakes, htotal⟩ := takes_controls (some (opcode, acc)) hcs (hfit _ List.mem_cons_self)
    rw [List.flatMap_cons, ← List.append_assoc] at hlen htext
    cases rest with
    | nil =>
      rw [List.flatMap_nil, List.append_nil] at hlen htext
      refine ⟨rs ++ [_], htakes.append (takes_last hfragment.mask hlen htext), ?_⟩
      rw [total_append, htotal, total_delivers, delivers_append]
      simp
    | cons r' rest =>
      have hpart : (acc ++ fragment.payload).length ≤ maxMessageSize := by
        rw [List.length_append] at hlen
        exact (Nat.le_add_right ..).trans hlen
      obtain ⟨rs', htakes', htotal'⟩ := ih (List.cons_ne_nil _ _)
        (fun r hr => hok r (List.mem_cons_of_mem _ hr)) (fun r hr => hfit r (List.mem_cons_of_mem _ hr))
        hlen htext
      refine ⟨rs ++ ([_] ++ rs'), htakes.append ((takes_more hfragment.mask hpart).append htakes'), ?_⟩
      rw [total_append, total_append, htotal, total_delivers, htotal', delivers_append, delivers_append]
      simp

/-- A control frame over the cap behind a message's first frame is refused. -/
theorem refuses_contFrames {rest : List (List Control × Fragment)}
    (hok : ∀ r ∈ rest, (∀ c ∈ r.1, c.Ok) ∧ r.2.Ok)
    (hbig : ∃ r ∈ rest, ∃ c ∈ r.1, maxMessageSize < c.payload.length)
    (hlen : (acc ++ rest.flatMap (·.2.payload)).length ≤ maxMessageSize) :
    Refuses maxMessageSize (some (opcode, acc)) (contFrames rest) := by
  induction rest generalizing acc with
  | nil =>
    obtain ⟨r, hr, -⟩ := hbig
    cases hr
  | cons r rest ih =>
    obtain ⟨cs, fragment⟩ := r
    obtain ⟨hcs, hfragment⟩ := hok _ List.mem_cons_self
    rw [List.flatMap_cons, ← List.append_assoc] at hlen
    by_cases hhere : ∃ c ∈ cs, maxMessageSize < c.payload.length
    · exact (refuses_controls hcs hhere).append _
    · have hfit : ∀ c ∈ cs, c.payload.length ≤ maxMessageSize := by
        intro c hc
        by_contra hlt
        exact hhere ⟨c, hc, Nat.lt_of_not_le hlt⟩
      obtain ⟨rs, htakes, -⟩ := takes_controls (some (opcode, acc)) hcs hfit
      have hlater : ∃ r ∈ rest, ∃ c ∈ r.1, maxMessageSize < c.payload.length := by
        obtain ⟨r, hr, hc⟩ := hbig
        rcases List.mem_cons.mp hr with rfl | hr
        · exact absurd hc hhere
        · exact ⟨r, hr, hc⟩
      have hpart : (acc ++ fragment.payload).length ≤ maxMessageSize := by
        rw [List.length_append] at hlen
        exact (Nat.le_add_right ..).trans hlen
      have hrefuses := ih (fun r hr => hok r (List.mem_cons_of_mem _ hr)) hlater hlen
      have hmore : rest.isEmpty = false := by
        obtain ⟨r, hr, -⟩ := hlater
        cases rest with
        | nil => cases hr
        | cons r rest => rfl
      refine htakes.refuses ?_
      rw [hmore]
      exact (takes_more hfragment.mask hpart).refuses hrefuses

end Message

/-- The first frame of a message of more than one. -/
theorem takes_first {opcode : Nat} {payload mask : Bytes} (hop : opcode = WS_OP_TEXT ∨ opcode = WS_OP_BINARY)
    (hmask : mask.length = 4) (hlen : payload.length ≤ maxMessageSize) :
    Takes maxMessageSize none [⟨false, opcode, payload, mask⟩] (some (opcode, payload)) [delivers [] []] := by
  refine .cons ⟨?_, .inr hlen, fun h => ?_, hmask⟩ hlen ?_ .nil
  all_goals rcases hop with rfl | rfl
  · exact (by decide : 1 < 16)
  · exact (by decide : 2 < 16)
  · exact absurd h (by decide : ¬ WS_OP_TEXT ≥ 0x8)
  · exact absurd h (by decide : ¬ WS_OP_BINARY ≥ 0x8)
  · rfl
  · rfl

/-- A message of one frame. -/
theorem takes_whole {opcode : Nat} {payload mask : Bytes} (hop : opcode = WS_OP_TEXT ∨ opcode = WS_OP_BINARY)
    (hmask : mask.length = 4) (hlen : payload.length ≤ maxMessageSize)
    (htext : opcode = WS_OP_TEXT → Octets payload) :
    Takes maxMessageSize none [⟨true, opcode, payload, mask⟩] none [delivers [(opcode, payload)] []] := by
  refine .cons ⟨?_, .inr hlen, fun h => ?_, hmask⟩ hlen ?_ .nil
  all_goals rcases hop with rfl | rfl
  · exact (by decide : 1 < 16)
  · exact (by decide : 2 < 16)
  · exact absurd h (by decide : ¬ WS_OP_TEXT ≥ 0x8)
  · exact absurd h (by decide : ¬ WS_OP_BINARY ≥ 0x8)
  · have hvalid : ¬ (WS_OP_TEXT = WS_OP_TEXT ∧ (!isValidUtf8 payload) = true) := by
      rintro ⟨heq, hbad⟩
      rw [(isValidUtf8_exact _).1.mpr (htext heq)] at hbad
      cases hbad
    show (if WS_OP_TEXT = WS_OP_TEXT ∧ (!isValidUtf8 payload) = true then _ else _) = _
    rw [if_neg hvalid]
    rfl
  · rfl

/-- The control frames among an item's frames. -/
def Item.controls : Item → List Control
  | .control c => [c]
  | .message m => m.rest.flatMap Prod.fst

/-- **An item whose control frames are within the cap** delivers its message and answers its pings. -/
theorem takes_item {item : Item} (hok : item.Ok maxMessageSize)
    (hfit : ∀ c ∈ item.controls, c.payload.length ≤ maxMessageSize) :
    ∃ rs, Takes maxMessageSize none item.frames none rs ∧ total rs = delivers item.messages item.pings := by
  cases item with
  | control c =>
    exact ⟨[_], takes_control hok (hfit c List.mem_cons_self), total_delivers [] c.ping?⟩
  | message m =>
    obtain ⟨opcode, ⟨payload, mask⟩, rest⟩ := m
    obtain ⟨hop, hlen, htext, hfirst, hrest⟩ := hok
    unfold ClientMessage.payload at hlen htext
    dsimp only at hop hlen htext hfirst hrest
    cases rest with
    | nil =>
      rw [List.flatMap_nil, List.append_nil] at hlen htext
      refine ⟨[_], takes_whole hop hfirst.mask hlen htext, ?_⟩
      rw [total_delivers]
      simp [Item.messages, Item.pings, ClientMessage.payload]
    | cons r rest =>
      have hpart : payload.length ≤ maxMessageSize := by
        rw [List.length_append] at hlen
        omega
      obtain ⟨rs, htakes, htotal⟩ := takes_contFrames (List.cons_ne_nil r rest) hrest
        (fun r hr c hc => hfit c (List.mem_flatMap.mpr ⟨r, hr, hc⟩)) hlen htext
      refine ⟨[_] ++ rs, (takes_first hop hfirst.mask hpart).append htakes, ?_⟩
      rw [total_append, total_delivers, htotal, delivers_append]
      rfl

/-- **An item with a control frame over the cap** is refused. -/
theorem refuses_item {item : Item} (hok : item.Ok maxMessageSize)
    (hbig : ∃ c ∈ item.controls, maxMessageSize < c.payload.length) :
    Refuses maxMessageSize none item.frames := by
  cases item with
  | control c =>
    obtain ⟨d, hd, hbig⟩ := hbig
    have hall : ∀ d ∈ [c], d.Ok := fun d hd => List.mem_singleton.mp hd ▸ hok
    exact refuses_controls hall ⟨d, hd, hbig⟩
  | message m =>
    obtain ⟨opcode, ⟨payload, mask⟩, rest⟩ := m
    obtain ⟨hop, hlen, htext, hfirst, hrest⟩ := hok
    unfold ClientMessage.payload at hlen
    dsimp only at hop hlen hfirst hrest
    obtain ⟨c, hc, hbig⟩ := hbig
    obtain ⟨r, hr, hc⟩ := List.mem_flatMap.mp hc
    have hpart : payload.length ≤ maxMessageSize := by
      rw [List.length_append] at hlen
      omega
    have hmore : rest.isEmpty = false := by
      cases rest with
      | nil => cases hr
      | cons r rest => rfl
    have hrefuses : Refuses maxMessageSize (some (opcode, payload)) (contFrames rest) :=
      refuses_contFrames hrest ⟨r, hr, c, hc, hbig⟩ hlen
    show Refuses maxMessageSize none ([⟨rest.isEmpty, opcode, payload, mask⟩] ++ contFrames rest)
    rw [hmore]
    exact (takes_first hop hfirst.mask hpart).refuses hrefuses

theorem takes_items {items : List Item} (hok : ∀ item ∈ items, item.Ok maxMessageSize)
    (hfit : ∀ item ∈ items, ∀ c ∈ item.controls, c.payload.length ≤ maxMessageSize) :
    ∃ rs, Takes maxMessageSize none (items.flatMap Item.frames) none rs ∧
      total rs = delivers (items.flatMap Item.messages) (items.flatMap Item.pings) := by
  induction items with
  | nil => exact ⟨[], .nil, rfl⟩
  | cons item items ih =>
    obtain ⟨rs, htakes, htotal⟩ := takes_item (hok item List.mem_cons_self) (hfit item List.mem_cons_self)
    obtain ⟨rs', htakes', htotal'⟩ := ih (fun i hi => hok i (List.mem_cons_of_mem _ hi))
      fun i hi => hfit i (List.mem_cons_of_mem _ hi)
    refine ⟨rs ++ rs', htakes.append htakes', ?_⟩
    rw [total_append, htotal, htotal', delivers_append]
    rfl

theorem refuses_items {items : List Item} (hok : ∀ item ∈ items, item.Ok maxMessageSize)
    (hbig : ∃ item ∈ items, ∃ c ∈ item.controls, maxMessageSize < c.payload.length) :
    Refuses maxMessageSize none (items.flatMap Item.frames) := by
  induction items with
  | nil =>
    obtain ⟨item, hi, -⟩ := hbig
    cases hi
  | cons item items ih =>
    have hitem := hok item List.mem_cons_self
    by_cases hhere : ∃ c ∈ item.controls, maxMessageSize < c.payload.length
    · exact (refuses_item hitem hhere).append _
    · have hfit : ∀ c ∈ item.controls, c.payload.length ≤ maxMessageSize := by
        intro c hc
        by_contra hlt
        exact hhere ⟨c, hc, Nat.lt_of_not_le hlt⟩
      obtain ⟨rs, htakes, -⟩ := takes_item hitem hfit
      refine htakes.refuses (ih (fun i hi => hok i (List.mem_cons_of_mem _ hi)) ?_)
      obtain ⟨i, hi, hc⟩ := hbig
      rcases List.mem_cons.mp hi with rfl | hi
      · exact absurd hc hhere
      · exact ⟨i, hi, hc⟩

end Frames

/-! ## The whole run -/

/-- However a client's bytes are cut into reads, a fresh parser delivers exactly its messages, in
order and with their opcodes, answers each ping with one Pong that carries its payload, in order, and
does not close. -/
def Decodes (maxMessageSize : Nat) (items : List Item) : Prop :=
  ∀ reads : List Bytes, reads.flatten = clientWire items →
    (WSState.fresh maxMessageSize).feedReads reads =
      delivers (items.flatMap Item.messages) (items.flatMap Item.pings)

/-- **What a client may send is decoded exactly when its pings and pongs are within the cap on
messages**, which `feed` asks of every frame. Unmasking 64 bytes at a time is masking byte by byte. -/
theorem decodes_iff {maxMessageSize : Nat} (hmax : maxMessageSize < 2 ^ 63) {items : List Item}
    (hok : ∀ item ∈ items, item.Ok maxMessageSize) :
    (Decodes maxMessageSize items ↔
      ∀ item ∈ items, ∀ c ∈ item.controls, c.payload.length ≤ maxMessageSize) ∧
    ∀ masked mask : Bytes,
      unmaskPayload masked mask = masked.mapIdx fun i b => b ^^^ mask.getD (i % 4) 0 := by
  have hwait : (WSState.fresh maxMessageSize).Waiting := rfl
  have hfeed : ∀ reads : List Bytes, reads.flatten = clientWire items →
      (WSState.fresh maxMessageSize).feedReads reads =
        collect (frames.run (between maxMessageSize none) (clientWire items)) := by
    intro reads hreads
    rw [feedReads_eq hwait, hreads]
    rfl
  refine ⟨⟨fun hdecodes => ?_, fun hfit reads hreads => ?_⟩, unmaskPayload_eq⟩
  · by_contra hbig
    have hbig : ∃ item ∈ items, ∃ c ∈ item.controls, maxMessageSize < c.payload.length := by
      by_contra hnone
      refine hbig fun item hitem c hc => ?_
      by_contra hlt
      exact hnone ⟨item, hitem, c, hc, Nat.lt_of_not_le hlt⟩
    have hclose := (refuses_items hok hbig).run hmax
    have hall := hdecodes [clientWire items] (by simp)
    rw [hfeed _ (by simp)] at hall
    change (collect (frames.run (between maxMessageSize none) (clientWire items))).closeAfterReply = true at hclose
    rw [hall] at hclose
    cases hclose
  · obtain ⟨rs, htakes, htotal⟩ := takes_items hok hfit
    rw [hfeed reads hreads, clientWire, htakes.run hmax]
    exact htotal

/-- A parser whose messages have at most four bytes, and a client that pings and greets. -/
theorem decodes_iff_greeting :
    Decodes 4 [.control (.ping [1, 2] [0, 1, 2, 3]),
      .message ⟨WS_OP_TEXT, ⟨[0x68], [9, 8, 7, 6]⟩, [([.pong [] [0, 0, 0, 0]], ⟨[0x69], [5, 5, 5, 5]⟩)]⟩] := by
  refine (decodes_iff (by decide) ?_).1.mpr (by decide)
  intro item hitem
  rcases List.mem_pair.mp hitem with rfl | rfl
  · exact ⟨by decide, by decide⟩
  · refine ⟨by decide, by decide, fun _ => ?_, ⟨by decide⟩, fun r hr => ?_⟩
    · rw [octets_iff]
      exact ⟨['h', 'i'], by decide⟩
    · rw [List.mem_singleton.mp hr]
      exact ⟨fun c hc => List.mem_singleton.mp hc ▸ ⟨by decide, by decide⟩, ⟨by decide⟩⟩

/-- A ping of five bytes to a parser whose messages have at most four. -/
theorem long_ping_not_decoded :
    (∀ item ∈ [Item.control (.ping [1, 2, 3, 4, 5] [0, 0, 0, 0])], item.Ok 4) ∧
      ¬ Decodes 4 [.control (.ping [1, 2, 3, 4, 5] [0, 0, 0, 0])] := by
  refine ⟨fun item hitem => List.mem_singleton.mp hitem ▸ ⟨by decide, by decide⟩, fun hdecodes => ?_⟩
  have hall := hdecodes [clientWire [.control (.ping [1, 2, 3, 4, 5] [0, 0, 0, 0])]] (by simp)
  revert hall
  decide

end MojoHttp.Receive
