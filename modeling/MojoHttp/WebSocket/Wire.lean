import MojoHttp.WebSocket.Frames
import Mathlib.Data.List.Basic

/-!
# A server's frames, as its client reads them

The frames of a byte string, read back one at a time (RFC 6455 §5.2, no mask), and what it is for
them to end at a Close.

* **`wsFrames_wire`** — the frames a server wrote are the frames its client reads.
* **`closeEnds_append_singleton`** — another frame may be written while there is no Close.
-/

namespace MojoHttp

/-- A frame a server sends. -/
structure WsFrame where
  opcode : Nat
  payload : Bytes
  deriving Repr, DecidableEq

namespace WsFrame

def encode (f : WsFrame) : Bytes := encodeWsFrame f.opcode f.payload

def isClose (f : WsFrame) : Bool := f.opcode == WS_OP_CLOSE

/-- The opcode is one, and the length needs no more than the header's sixteen bits. -/
def Short (f : WsFrame) : Prop := f.opcode < 16 ∧ f.payload.length ≤ 0xFFFF

end WsFrame

/-- The frames one behind the other. -/
def wire (frames : List WsFrame) : Bytes := frames.flatMap WsFrame.encode

/-! ## Reading -/

/-- The payload behind a header, and what follows it. -/
def takePayload (opcode n : Nat) (rest : Bytes) : Option (WsFrame × Bytes) :=
  if rest.length < n then none else some (⟨opcode, rest.take n⟩, rest.drop n)

/-- The whole frame at the front, and what follows it. -/
def takeSentFrame : Bytes → Option (WsFrame × Bytes)
  | b0 :: b1 :: rest =>
    let opcode := b0.toNat &&& 0x0F
    let n := b1.toNat &&& 0x7F
    if n ≤ 125 then takePayload opcode n rest
    else if n = 126 then
      if rest.length < 2 then none
      else takePayload opcode ((rest.getD 0 0).toNat <<< 8 + (rest.getD 1 0).toNat) (rest.drop 2)
    else if rest.length < 8 then none
    else takePayload opcode ((rest.take 8).foldl (fun v b => v <<< 8 + b.toNat) 0) (rest.drop 8)
  | _ => none

def wsFramesFrom : (fuel : Nat) → Bytes → List WsFrame
  | 0, _ => []
  | fuel + 1, bytes =>
    match takeSentFrame bytes with
    | none => []
    | some (f, rest) => f :: wsFramesFrom fuel rest

/-- The whole frames of a byte string. -/
def wsFrames (bytes : Bytes) : List WsFrame := wsFramesFrom bytes.length bytes

theorem takePayload_append (opcode : Nat) (payload rest : Bytes) :
    takePayload opcode payload.length (payload ++ rest) = some (⟨opcode, payload⟩, rest) := by
  unfold takePayload
  rw [if_neg (by simp), List.take_left, List.drop_left]

theorem toByte_toNat {n : Nat} (h : n < 256) : (toByte n).toNat = n :=
  UInt8.toNat_ofNat_of_lt' h

/-- **A frame reads back**, whatever follows it. -/
theorem takeSentFrame_encode {f : WsFrame} (hf : f.Short) (rest : Bytes) :
    takeSentFrame (f.encode ++ rest) = some (f, rest) := by
  obtain ⟨opcode, payload⟩ := f
  have hop : opcode < 16 := hf.1
  have hlen : payload.length ≤ 0xFFFF := hf.2
  have hopcode : (toByte (0x80 ||| (opcode &&& 0x0F))).toNat &&& 0x0F = opcode :=
    (by decide : ∀ op < 16, (toByte (0x80 ||| (op &&& 0x0F))).toNat &&& 0x0F = op) opcode hop
  show takeSentFrame (encodeWsFrame opcode payload ++ rest) = _
  unfold encodeWsFrame frameHeader
  dsimp only
  rw [List.cons_append, List.cons_append]
  split
  · -- the length stands in the second byte
    next hshort =>
    have hn : (toByte ((if false = true then 0x80 else 0) ||| payload.length)).toNat &&& 0x7F =
        payload.length :=
      (by decide : ∀ n ≤ 125, (toByte ((if false = true then 0x80 else 0) ||| n)).toNat &&& 0x7F = n)
        payload.length hshort
    show takeSentFrame (_ :: _ :: (payload ++ rest)) = _
    unfold takeSentFrame
    dsimp only
    rw [hopcode, hn, if_pos hshort, takePayload_append]
  · -- two bytes of it follow
    next hlong =>
    have hhi : (toByte (payload.length >>> 8 &&& 0xFF)).toNat = payload.length >>> 8 := by
      have hlt : payload.length >>> 8 < 256 := by omega
      rw [show (0xFF : Nat) = 2 ^ 8 - 1 from rfl, Nat.and_two_pow_sub_one_eq_mod,
        Nat.mod_eq_of_lt hlt, toByte_toNat hlt]
    have hlo : (toByte (payload.length &&& 0xFF)).toNat = payload.length % 256 := by
      rw [show (0xFF : Nat) = 2 ^ 8 - 1 from rfl, Nat.and_two_pow_sub_one_eq_mod,
        toByte_toNat (by omega)]
    show takeSentFrame (_ :: _ :: _ :: _ :: (payload ++ rest)) = _
    unfold takeSentFrame
    dsimp only
    rw [hopcode, if_neg (by decide), if_pos (by decide), if_neg (by simp)]
    show takePayload opcode
      ((toByte (payload.length >>> 8 &&& 0xFF)).toNat <<< 8 + (toByte (payload.length &&& 0xFF)).toNat)
      (payload ++ rest) = _
    rw [hhi, hlo, show payload.length >>> 8 <<< 8 + payload.length % 256 = payload.length by omega,
      takePayload_append]

theorem encode_ne_nil (f : WsFrame) : 0 < f.encode.length := by
  simp [WsFrame.encode, encodeWsFrame, frameHeader]

theorem length_le_wire (frames : List WsFrame) : frames.length ≤ (wire frames).length := by
  induction frames with
  | nil => exact Nat.le_refl _
  | cons f frames ih =>
    have hpos := encode_ne_nil f
    rw [wire, List.flatMap_cons, List.length_append, List.length_cons]
    unfold wire at ih
    omega

/-- A frame of at most 65536 bytes needs no longer header. -/
theorem short_of_length_le {f : WsFrame} (hop : f.opcode < 16) (hlen : f.encode.length ≤ 65536) :
    f.Short := by
  refine ⟨hop, ?_⟩
  rw [WsFrame.encode, encodeWsFrame, List.length_append, frameHeader, List.length_cons] at hlen
  split at hlen
  · next hn => exact Nat.le_trans hn (by decide)
  · split at hlen
    · next hn => exact hn
    · -- ten bytes of header, and the payload behind them
      simp only [List.length_cons, List.length_map, List.length_nil] at hlen
      omega

theorem eq_nil_of_wire_eq_nil {frames : List WsFrame} (h : wire frames = []) : frames = [] := by
  have hle := length_le_wire frames
  rw [h] at hle
  exact List.length_eq_zero_iff.mp (Nat.le_zero.mp hle)

/-- **The frames a server wrote are the frames its client reads.** -/
theorem wsFrames_wire {frames : List WsFrame} (h : ∀ f ∈ frames, f.Short) :
    wsFrames (wire frames) = frames := by
  have hread : ∀ (fuel : Nat) (frames : List WsFrame), frames.length ≤ fuel →
      (∀ f ∈ frames, f.Short) → wsFramesFrom fuel (wire frames) = frames := by
    intro fuel
    induction fuel with
    | zero =>
      intro frames hlen _
      rw [List.length_eq_zero_iff.mp (Nat.le_zero.mp hlen)]
      rfl
    | succ fuel ih =>
      intro frames hlen hshort
      cases frames with
      | nil => rfl
      | cons f frames =>
        rw [wire, List.flatMap_cons, wsFramesFrom, takeSentFrame_encode (hshort f List.mem_cons_self)]
        dsimp only
        have hrest := ih frames (Nat.le_of_succ_le_succ hlen)
          fun g hg => hshort g (List.mem_cons_of_mem _ hg)
        rw [wire] at hrest
        rw [hrest]
  exact hread _ frames (length_le_wire frames) h

theorem wire_append (as bs : List WsFrame) : wire (as ++ bs) = wire as ++ wire bs :=
  List.flatMap_append

/-! ## The Close -/

def hasClose (frames : List WsFrame) : Bool := frames.any WsFrame.isClose

/-- There is at most one Close, and no frame behind it. -/
def closeEnds : List WsFrame → Bool
  | [] => true
  | f :: frames => if f.isClose then frames.isEmpty else closeEnds frames

theorem hasClose_append (as bs : List WsFrame) :
    hasClose (as ++ bs) = (hasClose as || hasClose bs) := List.any_append

theorem closeEnds_of_not_hasClose {frames : List WsFrame} (h : hasClose frames = false) :
    closeEnds frames = true := by
  induction frames with
  | nil => rfl
  | cons f frames ih =>
    have ⟨hf, hrest⟩ : f.isClose = false ∧ hasClose frames = false := by
      simpa [hasClose] using h
    show (if f.isClose then _ else _) = true
    rw [hf]
    exact ih hrest

/-- **Another frame leaves the Close the last one exactly when there was none.** -/
theorem closeEnds_append_singleton (frames : List WsFrame) (f : WsFrame) :
    closeEnds (frames ++ [f]) = !hasClose frames := by
  induction frames with
  | nil =>
    show (if f.isClose then _ else _) = _
    cases f.isClose <;> rfl
  | cons g frames ih =>
    show (if g.isClose then (frames ++ [f]).isEmpty else closeEnds (frames ++ [f])) =
      !(g.isClose || hasClose frames)
    cases g.isClose with
    | true => simp
    | false => exact ih

/-- A frame behind the Close is there for good. -/
theorem closeEnds_of_append {as bs : List WsFrame} (h : closeEnds (as ++ bs) = true) :
    closeEnds as = true := by
  induction as with
  | nil => rfl
  | cons f as ih =>
    change (if f.isClose then (as ++ bs).isEmpty else closeEnds (as ++ bs)) = true at h
    show (if f.isClose then as.isEmpty else closeEnds as) = true
    cases hf : f.isClose with
    | true =>
      rw [hf] at h
      simp only [if_true, List.isEmpty_iff, List.append_eq_nil_iff] at h
      simp [h.1]
    | false =>
      rw [hf] at h
      exact ih h

end MojoHttp
