import MojoHttp.Http.Chunked
import MojoHttp.Lib.Resumable

/-!
# The chunked decoder as a machine over bytes

What the decoder is for, without its buffer: a `Phase` of the framing, and what one byte does in
it (`Phase.next`). The loop of `decode`, which scans ahead, moves bytes down and keeps counters
in the decoder, runs this machine.

* **`Shows`** — a decoder stands in a phase.
* **`turn_follows`** — one turn of the loop runs the machine over the bytes it takes.
* **`decodeLoop_follows`** — so does the loop, from any state, with the fuel `decode` has.
* **`decodeCore_spec`** — one call: its answer, its output, what it leaves and where the decoder
  stands are those of the machine's run.
-/

namespace MojoHttp

open BytesConstant Resumable

/-- Where in the framing of a chunked body a reader stands. -/
inductive Phase where
  /-- In the size digits, `value` so far. -/
  | size (started : Bool) (value : Nat)
  /-- Behind the digits. -/
  | sizeEnd (value : Nat)
  | ext (value : Nat)
  | headerLf (value : Nat)
  /-- `more + 1` bytes of the chunk to come. -/
  | data (more : Nat)
  | dataCr
  | dataLf
  | trailerHead
  | trailerName
  | trailerValue
  | trailerLf
  | endLf
  deriving Repr, DecidableEq

namespace Phase

def state : Phase → DecoderState
  | size _ _ => .inChunkSize
  | sizeEnd _ => .inChunkSizeEnd
  | ext _ => .inChunkExt
  | headerLf _ => .inChunkHeaderExpectLf
  | data _ => .inChunkData
  | dataCr => .inChunkDataExpectCr
  | dataLf => .inChunkDataExpectLf
  | trailerHead => .inTrailersLineHead
  | trailerName => .inTrailersLineName
  | trailerValue => .inTrailersLineMiddle
  | trailerLf => .inTrailersLineExpectLf
  | endLf => .inTrailersEndExpectLf

/-- What `bytes_left_in_chunk` holds. -/
def left : Phase → Nat
  | size _ value | sizeEnd value | ext value | headerLf value => value
  | data more => more + 1
  | _ => 0

/-- Behind a size line. A body without trailers ends there when the chunk is the last one. -/
def afterSizeLine (trailer : Bool) : Nat → Next Phase UInt8 Bool
  | 0 => if trailer then .go trailerHead [] else .halt true
  | more + 1 => .go (data more) []

/-- A byte behind the size digits. -/
def afterDigits (value : Nat) (b : UInt8) : Next Phase UInt8 Bool :=
  if b = whitespace ∨ b = TAB then .go (sizeEnd value) []
  else if b = SEMICOLON then .go (ext value) []
  else if b = CR then .go (headerLf value) []
  else .halt false

/-- The byte wanted, and nothing else. -/
def wants (want b : UInt8) (next : Next Phase UInt8 Bool) : Next Phase UInt8 Bool :=
  if b = want then next else .halt false

/-- What one byte does: `halt true` completes the body, `halt false` refuses it. -/
def next (trailer : Bool) : Phase → UInt8 → Next Phase UInt8 Bool
  | size started value, b =>
    match decodeHex b with
    | some v => if value < 2 ^ 59 then .go (size true (value * 16 + v)) [] else .halt false
    | none => if started then afterDigits value b else .halt false
  | sizeEnd value, b => afterDigits value b
  | ext value, b =>
    if b = CR then .go (headerLf value) []
    else if badInExt b then .halt false
    else .go (ext value) []
  | headerLf value, b => wants LF b (afterSizeLine trailer value)
  | data 0, b => .go dataCr [b]
  | data (more + 1), b => .go (data more) [b]
  | dataCr, b => wants CR b (.go dataLf [])
  | dataLf, b => wants LF b (.go (size false 0) [])
  | trailerHead, b =>
    if b = CR then .go endLf []
    else if isTokenChar b then .go trailerName []
    else .halt false
  | trailerName, b =>
    if b = COLON then .go trailerValue []
    else if isTokenChar b then .go trailerName []
    else .halt false
  | trailerValue, b =>
    if b = CR then .go trailerLf []
    else if badInTrailer b then .halt false
    else .go trailerValue []
  | trailerLf, b => wants LF b (.go trailerHead [])
  | endLf, b => wants LF b (.halt true)

end Phase

/-- The machine the decoder runs. -/
def chunked (trailer : Bool) : Machine UInt8 Phase UInt8 Bool := Machine.ofNext (Phase.next trailer)

/-! ## What the loop shows -/

/-- The decoder stands in phase `p`. The significant digits counted bound the value from below:
the count meets its limit of 16 only where the value is past its own limit. -/
structure Shows (d : HTTPChunkedDecoder) (p : Phase) : Prop where
  state : d.state = p.state
  left : d.bytesLeftInChunk = p.left
  le : (p.left : Int) ≤ intMax
  hex : (∃ v, p = .size true v) ↔ d.hexCount ≠ 0
  sig : d.sigHexCount = 0 ∨ ((∃ v, p = .size true v) ∧ 16 ^ (d.sigHexCount - 1) ≤ p.left)

/-- `bytes_left_in_chunk` neither overflows nor goes negative. -/
def HTTPChunkedDecoder.LeftInRange (d : HTTPChunkedDecoder) : Prop :=
  0 ≤ d.bytesLeftInChunk ∧ d.bytesLeftInChunk ≤ intMax

theorem Shows.leftInRange {d : HTTPChunkedDecoder} {p : Phase} (h : Shows d p) :
    d.LeftInRange := by
  unfold HTTPChunkedDecoder.LeftInRange
  rw [h.left]
  exact ⟨Int.natCast_nonneg _, h.le⟩

theorem shows_fresh (consumeTrailer : Bool) :
    Shows (HTTPChunkedDecoder.fresh consumeTrailer) (.size false 0) where
  state := rfl
  left := rfl
  le := by decide
  hex := by simp [HTTPChunkedDecoder.fresh]
  sig := Or.inl rfl

/-- Outside the digits, only the state and the bytes left are shown. -/
theorem shows_of_plain {d : HTTPChunkedDecoder} {p : Phase} (hp : ∀ v, p ≠ .size true v)
    (state : d.state = p.state) (left : d.bytesLeftInChunk = p.left) (le : (p.left : Int) ≤ intMax)
    (hex : d.hexCount = 0) (sig : d.sigHexCount = 0) : Shows d p where
  state := state
  left := left
  le := le
  hex := iff_of_false (fun ⟨v, hv⟩ => hp v hv) (by simp [hex])
  sig := Or.inl sig

theorem Shows.counts {d : HTTPChunkedDecoder} {p : Phase} (h : Shows d p)
    (hp : ∀ v, p ≠ .size true v) : d.hexCount = 0 ∧ d.sigHexCount = 0 := by
  refine ⟨?_, ?_⟩
  · by_contra hne
    obtain ⟨v, hv⟩ := h.hex.mpr hne
    exact hp v hv
  · rcases h.sig with h0 | ⟨⟨v, hv⟩, _⟩
    · exact h0
    · exact absurd hv (hp v)

namespace DecodeLoop

/-- The bytes not read yet. -/
def rest (l : DecodeLoop) : Bytes := l.buf.drop l.src

/-- The bytes decoded so far. -/
def written (l : DecodeLoop) : Bytes := l.buf.take l.dst

/-- The decoded bytes end at or before the bytes to read. -/
def Laid (l : DecodeLoop) : Prop := l.dst ≤ l.src ∧ l.src ≤ l.buf.length

theorem rest_of_ended {l : DecodeLoop} (h : l.ended = true) : l.rest = [] :=
  List.drop_eq_nil_of_le (by simpa [ended] using h)

theorem src_of_ended {l : DecodeLoop} (hl : l.Laid) (h : l.ended = true) :
    l.src = l.buf.length := by
  have hle : l.buf.length ≤ l.src := by simpa [ended] using h
  exact Nat.le_antisymm hl.2 hle

theorem lt_of_not_ended {l : DecodeLoop} (h : l.ended = false) : l.src < l.buf.length := by
  simpa [ended] using h

theorem rest_of_not_ended {l : DecodeLoop} (h : l.ended = false) :
    l.rest = l.byte :: l.advance.rest := by
  have hlt := lt_of_not_ended h
  unfold rest byte advance
  rw [List.drop_eq_getElem_cons hlt, List.getD_eq_getElem _ _ hlt]

/-- `l'` is `l` some turns later: `out` was decoded, the totals wait for the end of the call. -/
structure To (l l' : DecodeLoop) (out : Bytes) : Prop where
  length : l'.buf.length = l.buf.length
  written : l'.written = l.written ++ out
  dst : l'.dst = l.dst + out.length
  src : l.src ≤ l'.src
  laid : l'.Laid
  consumeTrailer : l'.decoder.consumeTrailer = l.decoder.consumeTrailer
  totalRead : l'.decoder.totalRead = l.decoder.totalRead
  totalOverhead : l'.decoder.totalOverhead = l.decoder.totalOverhead
  pendingBytes : l'.decoder.pendingBytes = l.decoder.pendingBytes

theorem To.refl {l : DecodeLoop} (h : l.Laid) : l.To l [] where
  length := rfl
  written := (List.append_nil _).symm
  dst := rfl
  src := le_rfl
  laid := h
  consumeTrailer := rfl
  totalRead := rfl
  totalOverhead := rfl
  pendingBytes := rfl

theorem To.trans {l l' l'' : DecodeLoop} {a b : Bytes} (h : l.To l' a) (h' : l'.To l'' b) :
    l.To l'' (a ++ b) where
  length := h'.length.trans h.length
  written := by rw [h'.written, h.written, List.append_assoc]
  dst := by rw [h'.dst, h.dst, List.length_append, Nat.add_assoc]
  src := h.src.trans h'.src
  laid := h'.laid
  consumeTrailer := h'.consumeTrailer.trans h.consumeTrailer
  totalRead := h'.totalRead.trans h.totalRead
  totalOverhead := h'.totalOverhead.trans h.totalOverhead
  pendingBytes := h'.pendingBytes.trans h.pendingBytes

theorem to_advance {l : DecodeLoop} (h : l.Laid) (hend : l.ended = false) : l.To l.advance [] where
  length := rfl
  written := (List.append_nil _).symm
  dst := rfl
  src := Nat.le_succ _
  laid := ⟨Nat.le_succ_of_le h.1, lt_of_not_ended hend⟩
  consumeTrailer := rfl
  totalRead := rfl
  totalOverhead := rfl
  pendingBytes := rfl

theorem to_setState {l : DecodeLoop} (h : l.Laid) (state : DecoderState) :
    l.To (l.setState state) [] where
  length := rfl
  written := (List.append_nil _).symm
  dst := rfl
  src := le_rfl
  laid := h
  consumeTrailer := rfl
  totalRead := rfl
  totalOverhead := rfl
  pendingBytes := rfl

@[simp] theorem rest_setState (l : DecodeLoop) (state : DecoderState) :
    (l.setState state).rest = l.rest := rfl

@[simp] theorem decoder_advance (l : DecodeLoop) : l.advance.decoder = l.decoder := rfl

end DecodeLoop

/-! ## Runs of the machine over what the loop reads -/

theorem chunked_ended {trailer : Bool} {l : DecodeLoop} (h : l.ended = true) (p : Phase) :
    (chunked trailer).run p l.rest = .waiting p [] [] := by
  rw [DecodeLoop.rest_of_ended h]
  exact Machine.run_ofNext_nil p

theorem chunked_go {trailer : Bool} {l : DecodeLoop} (h : l.ended = false) {p q : Phase}
    {out : Bytes} (hn : p.next trailer l.byte = .go q out) :
    (chunked trailer).run p l.rest = ((chunked trailer).run q l.advance.rest).after out := by
  rw [DecodeLoop.rest_of_not_ended h]
  exact Machine.run_ofNext_go hn _

theorem chunked_halt {trailer : Bool} {l : DecodeLoop} (h : l.ended = false) {p : Phase} {t : Bool}
    (hn : p.next trailer l.byte = .halt t) :
    (chunked trailer).run p l.rest = .closed t l.advance.rest [] := by
  rw [DecodeLoop.rest_of_not_ended h]
  exact Machine.run_ofNext_halt hn _

/-- From `l` in phase `p` to `l'` in phase `p'`: the machine runs over what was read between. -/
structure Advances (l : DecodeLoop) (p : Phase) (l' : DecodeLoop) (p' : Phase) (out : Bytes) :
    Prop where
  loop : l.To l' out
  shows : Shows l'.decoder p'
  run : (chunked l.decoder.consumeTrailer).run p l.rest =
    ((chunked l.decoder.consumeTrailer).run p' l'.rest).after out

theorem Advances.refl {l : DecodeLoop} {p : Phase} (hl : l.Laid) (hp : Shows l.decoder p) :
    Advances l p l p [] where
  loop := DecodeLoop.To.refl hl
  shows := hp
  run := (Outcome.after_nil _).symm

theorem Advances.trans {l l' l'' : DecodeLoop} {p p' p'' : Phase} {a b : Bytes}
    (h : Advances l p l' p' a) (h' : Advances l' p' l'' p'' b) : Advances l p l'' p'' (a ++ b) where
  loop := h.loop.trans h'.loop
  shows := h'.shows
  run := by
    have hrun := h'.run
    rw [h.loop.consumeTrailer] at hrun
    rw [h.run, hrun, Outcome.after_after]

/-- One byte taken, the decoder left as it stands but for its state. -/
theorem advances_byte {l : DecodeLoop} {p q : Phase} (hl : l.Laid) (hend : l.ended = false)
    (hn : p.next l.decoder.consumeTrailer l.byte = .go q [])
    (hq : Shows (l.advance.setState q.state).decoder q) :
    Advances l p (l.advance.setState q.state) q [] where
  loop := (DecodeLoop.to_advance hl hend).trans (DecodeLoop.to_setState
    (DecodeLoop.to_advance hl hend).laid q.state)
  shows := hq
  run := chunked_go hend hn

/-- What is left for the turns: two for a byte, one for the digits' end. -/
def DecodeLoop.measure (l : DecodeLoop) : Nat :=
  2 * (l.buf.length - l.src) + if l.decoder.state = .inChunkSize then 1 else 0

theorem DecodeLoop.measure_lt {l l' : DecodeLoop} (hlen : l'.buf.length = l.buf.length)
    (hsrc : l.src < l'.src) (hlaid : l'.Laid) : l'.measure < l.measure := by
  have h := hlaid.2
  unfold measure
  split <;> split <;> omega

theorem DecodeLoop.measure_le {l l' : DecodeLoop} (hlen : l'.buf.length = l.buf.length)
    (hsrc : l.src ≤ l'.src) (hstate : l'.decoder.state = l.decoder.state) :
    l'.measure ≤ l.measure := by
  unfold measure
  rw [hlen, hstate]
  omega

/-- What a turn from `l` in phase `p` amounts to, by how it ends. -/
inductive Follows (l : DecodeLoop) (p : Phase) : Turn → Prop where
  | again {l' : DecodeLoop} {q : Phase} {o : Bytes} (h : Advances l p l' q o)
      (hm : l'.measure < l.measure) : Follows l p (.again l')
  | wait {l' : DecodeLoop} {q : Phase} {o : Bytes} (h : Advances l p l' q o)
      (hend : l'.ended = true) : Follows l p (.leave (-2) l')
  | done {l' : DecodeLoop} {ret : Int} {out : Bytes} (h : l.To l' out)
      (hleft : l'.decoder.LeftInRange) (hret : ret = (l'.buf.length : Int) - l'.src)
      (hrun : (chunked l.decoder.consumeTrailer).run p l.rest = .closed true l'.rest out) :
      Follows l p (.leave ret l')
  | refuse {l' : DecodeLoop} {rest out : Bytes} (h : l.To l' out)
      (hleft : l'.decoder.LeftInRange)
      (hrun : (chunked l.decoder.consumeTrailer).run p l.rest = .closed false rest out) :
      Follows l p (.refuse l')

/-- What a turn does behind some progress, the two together do. -/
theorem Follows.behind {l l' : DecodeLoop} {p p' : Phase} {out : Bytes} {t : Turn}
    (h : Advances l p l' p' out) (hm : l'.measure ≤ l.measure) (ht : Follows l' p' t) :
    Follows l p t := by
  cases ht with
  | again h' hm' => exact .again (h.trans h') (hm'.trans_le hm)
  | wait h' hend => exact .wait (h.trans h') hend
  | done h' hleft hret hrun =>
    refine .done (h.loop.trans h') hleft hret ?_
    rw [h.loop.consumeTrailer] at hrun
    rw [h.run, hrun]
    rfl
  | refuse h' hleft hrun =>
    rw [h.loop.consumeTrailer] at hrun
    exact .refuse (h.loop.trans h') hleft (by rw [h.run, hrun]; rfl)

/-- A byte that is refused where it stands. -/
theorem follows_refuse {l : DecodeLoop} {p : Phase} (hl : l.Laid) (hp : Shows l.decoder p)
    (hend : l.ended = false) (hn : p.next l.decoder.consumeTrailer l.byte = .halt false) :
    Follows l p (.refuse l) :=
  .refuse (DecodeLoop.To.refl hl) hp.leftInRange (chunked_halt hend hn)

/-- A byte that is taken. -/
theorem follows_byte {l : DecodeLoop} {p q : Phase} (hl : l.Laid) (hend : l.ended = false)
    (hn : p.next l.decoder.consumeTrailer l.byte = .go q [])
    (hq : Shows (l.advance.setState q.state).decoder q) :
    Follows l p (.again (l.advance.setState q.state)) := by
  have h := advances_byte hl hend hn hq
  exact .again h (DecodeLoop.measure_lt h.loop.length (Nat.lt_succ_self _) h.loop.laid)

/-- Nothing left to read. -/
theorem follows_ended {l : DecodeLoop} {p : Phase} (hl : l.Laid) (hp : Shows l.decoder p)
    (hend : l.ended = true) : Follows l p (.leave (-2) l) :=
  .wait (Advances.refl hl hp) hend

/-! ## The loops of a turn -/

/-- `scanTo` runs a phase that stays where it is until `stop`. -/
theorem scanTo_spec {p : Phase} {stop : UInt8} {bad : UInt8 → Bool} {k : Nat} {l : DecodeLoop}
    (hp : ∀ trailer b, b ≠ stop →
      p.next trailer b = if bad b then .halt false else .go p [])
    (hk : l.buf.length - l.src = k) (hl : l.Laid) (hs : Shows l.decoder p) :
    match scanTo stop bad k l with
    | .ok l' => Advances l p l' p [] ∧ l'.measure ≤ l.measure ∧
      (l'.ended = false → l'.byte = stop)
    | .error l' => Follows l p (.refuse l') := by
  induction k generalizing l with
  | zero =>
    have hend : l.ended = true := by
      simp only [DecodeLoop.ended, ge_iff_le, decide_eq_true_eq]
      omega
    rw [scanTo]
    exact ⟨Advances.refl hl hs, le_rfl, fun h => absurd (hend.symm.trans h) (by decide)⟩
  | succ k ih =>
    have hend : l.ended = false := by
      simp only [DecodeLoop.ended, ge_iff_le, decide_eq_false_iff_not, not_le]
      omega
    rw [scanTo]
    by_cases hstop : l.byte = stop
    · rw [if_pos hstop]
      exact ⟨Advances.refl hl hs, le_rfl, fun _ => hstop⟩
    · have hn := hp l.decoder.consumeTrailer l.byte hstop
      rw [if_neg hstop]
      cases hbad : bad l.byte with
      | true =>
        rw [if_pos rfl]
        rw [hbad, if_pos rfl] at hn
        exact follows_refuse hl hs hend hn
      | false =>
        rw [if_neg Bool.false_ne_true]
        rw [hbad, if_neg Bool.false_ne_true] at hn
        have hto := DecodeLoop.to_advance hl hend
        have hadv : Advances l p l.advance p [] := ⟨hto, hs, chunked_go hend hn⟩
        have hm : l.advance.measure ≤ l.measure :=
          DecodeLoop.measure_le rfl (Nat.le_succ _) rfl
        have hrec := ih (l := l.advance) (by simp only [DecodeLoop.advance]; omega) hto.laid hs
        split at hrec
        · obtain ⟨h, hm', hb⟩ := hrec
          exact ⟨hadv.trans h, hm'.trans hm, hb⟩
        · exact hrec.behind hadv hm

/-- The turn of a state that scans. -/
theorem scanTurn_follows {p q : Phase} {stop : UInt8} {bad : UInt8 → Bool} {l : DecodeLoop}
    (hp : ∀ trailer b, b ≠ stop →
      p.next trailer b = if bad b then .halt false else .go p [])
    (hq : ∀ trailer, p.next trailer stop = .go q []) (hl : l.Laid) (hs : Shows l.decoder p)
    (hpq : ∀ d, Shows d p → Shows { d with state := q.state } q) :
    Follows l p (scanTurn l stop bad q.state) := by
  have h := scanTo_spec hp rfl hl hs
  unfold scanTurn
  split at h
  · rename_i l' hscan
    obtain ⟨hadv, hm, hstop⟩ := h
    rw [hscan]
    dsimp only
    cases hend : l'.ended with
    | true => exact (follows_ended hadv.loop.laid hadv.shows hend).behind hadv hm
    | false =>
      have hn := hq l'.decoder.consumeTrailer
      rw [← hstop hend] at hn
      exact (follows_byte hadv.loop.laid hend hn (hpq _ hadv.shows)).behind hadv hm
  · rename_i l' hscan
    rw [hscan]
    exact h

/-- The turn of a state that expects one byte. -/
theorem expectTurn_follows {p : Phase} {want : UInt8} {l : DecodeLoop}
    {next : DecodeLoop → Turn} (hp : ∀ trailer b, b ≠ want → p.next trailer b = .halt false)
    (hl : l.Laid) (hs : Shows l.decoder p)
    (hnext : l.ended = false → l.byte = want → Follows l p (next l.advance)) :
    Follows l p (expectTurn l want next) := by
  unfold expectTurn
  cases hend : l.ended with
  | true => exact follows_ended hl hs hend
  | false =>
    rw [if_neg Bool.false_ne_true]
    by_cases hb : l.byte = want
    · rw [if_neg (by simpa using hb)]
      exact hnext hend hb
    · rw [if_pos hb]
      exact follows_refuse hl hs hend (hp _ _ hb)

/-! ### The size digits -/

theorem decodeHex_lt : ∀ b : UInt8, ∀ v ∈ decodeHex b, v < 16 :=
  forall_byte (P := fun b => ∀ v ∈ decodeHex b, v < 16) (by decide)

theorem decodeHex_eq_none_of_endsSize :
    ∀ b : UInt8, endsSize b = true → decodeHex b = none :=
  forall_byte (P := fun b => endsSize b = true → decodeHex b = none) (by decide)

/-- A byte that cannot stand behind the digits is refused there. -/
theorem afterDigits_of_not_endsSize (value : Nat) {b : UInt8} (h : endsSize b = false) :
    Phase.afterDigits value b = .halt false := by
  simp only [endsSize, Bool.or_eq_false_iff, beq_eq_false_iff_ne] at h
  obtain ⟨⟨⟨⟨hsp, htab⟩, hsemi⟩, -⟩, hcr⟩ := h
  unfold Phase.afterDigits
  rw [if_neg (by simp [hsp, htab]), if_neg hsemi, if_neg hcr]

/-- The limit on one more digit. -/
theorem gt_shift_iff (value : Nat) : (value : Int) > intMax >>> (4 : Nat) ↔ ¬ value < 2 ^ 59 := by
  have hmax : intMax >>> (4 : Nat) = 2 ^ 59 - 1 := by decide
  rw [hmax]
  omega

theorem wrapInt_of_le {x : Int} (h0 : 0 ≤ x) (h : x ≤ intMax) : wrapInt x = x := by
  unfold wrapInt intMax at *
  rw [Int.bmod_eq_of_le] <;> omega

/-- One more digit below the limit. -/
theorem shows_takeDigit {l : DecodeLoop} {started : Bool} {value v : Nat}
    (hs : Shows l.decoder (.size started value)) (hlt : value < 2 ^ 59) (hv : v < 16) :
    Shows (takeDigit l v).decoder (.size true (value * 16 + v)) := by
  have hval : l.decoder.bytesLeftInChunk = value := hs.left
  have hle : ((value * 16 + v : Nat) : Int) ≤ intMax := by unfold intMax; omega
  have hleft : wrapInt (l.decoder.bytesLeftInChunk * 16 + v) = ((value * 16 + v : Nat) : Int) := by
    rw [hval, wrapInt_of_le (by omega) (by push_cast at hle; exact hle)]
    push_cast
    rfl
  have hstate : l.decoder.state = .inChunkSize := hs.state
  refine ⟨hstate, hleft, hle, iff_of_true ⟨_, rfl⟩ (Nat.succ_ne_zero _), ?_⟩
  show (if wrapInt (l.decoder.bytesLeftInChunk * 16 + v) > 0 then _ else _) = 0 ∨ _
  simp only [takeDigit, hleft, Phase.left]
  by_cases hpos : ((value * 16 + v : Nat) : Int) > 0
  · rw [if_pos hpos]
    refine Or.inr ⟨⟨_, rfl⟩, ?_⟩
    rcases hs.sig with h0 | ⟨-, hpow⟩
    · rw [h0]
      simpa using (by omega : 1 ≤ value * 16 + v)
    · -- one significant digit more is a factor of 16 more
      have hpow' : 16 ^ (l.decoder.sigHexCount - 1) ≤ value := hpow
      cases hsig : l.decoder.sigHexCount with
      | zero => simpa using (by omega : 1 ≤ value * 16 + v)
      | succ n =>
        rw [hsig] at hpow'
        simp only [Nat.add_sub_cancel] at hpow' ⊢
        rw [Nat.pow_succ]
        omega
  · rw [if_neg hpos]
    rcases hs.sig with h0 | ⟨-, hpow⟩
    · exact Or.inl h0
    · have hpow' : 16 ^ (l.decoder.sigHexCount - 1) ≤ value := hpow
      have : 0 < 16 ^ (l.decoder.sigHexCount - 1) := Nat.pow_pos (by decide)
      omega

/-- Sixteen significant digits are past the limit already. -/
theorem not_lt_of_sig {l : DecodeLoop} {started : Bool} {value : Nat}
    (hs : Shows l.decoder (.size started value)) (h16 : l.decoder.sigHexCount = 16) :
    ¬ value < 2 ^ 59 := by
  rcases hs.sig with h0 | ⟨-, hpow⟩
  · omega
  · rw [h16] at hpow
    have hpow' : 16 ^ 15 ≤ value := hpow
    omega

theorem to_takeDigit {l : DecodeLoop} (hl : l.Laid) (hend : l.ended = false) (v : Nat) :
    l.To (takeDigit l v) [] :=
  have h := DecodeLoop.to_advance hl hend
  ⟨rfl, h.written, rfl, h.src, h.laid, rfl, rfl, rfl, rfl⟩

/-- The digits run the size phase, up to a byte behind them. -/
theorem sizeDigits_spec {k : Nat} {l : DecodeLoop} {started : Bool} {value : Nat}
    (hk : l.buf.length - l.src = k) (hl : l.Laid)
    (hs : Shows l.decoder (.size started value)) :
    match sizeDigits k l with
    | .ok l' => ∃ started' value', Advances l (.size started value) l' (.size started' value') [] ∧
      l'.measure ≤ l.measure ∧
      (l'.ended = false → started' = true ∧ decodeHex l'.byte = none)
    | .error l' => Follows l (.size started value) (.refuse l') := by
  induction k generalizing l started value with
  | zero =>
    have hend : l.ended = true := by
      simp only [DecodeLoop.ended, ge_iff_le, decide_eq_true_eq]
      omega
    rw [sizeDigits]
    exact ⟨_, _, Advances.refl hl hs, le_rfl, fun h => absurd (hend.symm.trans h) (by decide)⟩
  | succ k ih =>
    have hend : l.ended = false := by
      simp only [DecodeLoop.ended, ge_iff_le, decide_eq_false_iff_not, not_le]
      omega
    rw [sizeDigits]
    cases hhex : decodeHex l.byte with
    | none =>
      have hn : (Phase.size started value).next l.decoder.consumeTrailer l.byte =
          if started then Phase.afterDigits value l.byte else .halt false := by
        simp only [Phase.next, hhex]
      have hstarted : started = true ↔ l.decoder.hexCount ≠ 0 := by
        rw [← hs.hex]
        simp
      dsimp only
      cases started with
      | false =>
        rw [if_pos (by simpa using hstarted)]
        exact follows_refuse hl hs hend hn
      | true =>
        rw [if_neg (hstarted.mp rfl)]
        cases hends : endsSize l.byte with
        | false => exact follows_refuse hl hs hend (hn.trans (afterDigits_of_not_endsSize _ hends))
        | true => exact ⟨_, _, Advances.refl hl hs, le_rfl, fun _ => ⟨rfl, hhex⟩⟩
    | some v =>
      have hn : (Phase.size started value).next l.decoder.consumeTrailer l.byte =
          if value < 2 ^ 59 then .go (.size true (value * 16 + v)) [] else .halt false := by
        simp only [Phase.next, hhex]
      have hval : l.decoder.bytesLeftInChunk = value := hs.left
      dsimp only
      rw [hval, if_congr (gt_shift_iff value) rfl rfl]
      by_cases hlt : value < 2 ^ 59
      · rw [if_neg (fun h16 => not_lt_of_sig hs h16 hlt), if_neg (not_not_intro hlt)]
        rw [if_pos hlt] at hn
        have hto := to_takeDigit hl hend v
        have hs' := shows_takeDigit hs hlt (decodeHex_lt _ _ hhex)
        have hadv : Advances l (.size started value) (takeDigit l v)
            (.size true (value * 16 + v)) [] := ⟨hto, hs', chunked_go hend hn⟩
        have hm : (takeDigit l v).measure ≤ l.measure :=
          DecodeLoop.measure_le rfl (Nat.le_succ _) rfl
        have hrec := ih (l := takeDigit l v) (by simp only [takeDigit]; omega) hto.laid hs'
        split at hrec
        · obtain ⟨s', v', h, hm', hb⟩ := hrec
          exact ⟨s', v', hadv.trans h, hm'.trans hm, hb⟩
        · exact hrec.behind hadv hm
      · rw [if_pos hlt, ite_self]
        rw [if_neg hlt] at hn
        exact follows_refuse hl hs hend hn

/-- A phase outside the digits shows no count. -/
theorem shows_next {d : HTTPChunkedDecoder} {p q : Phase} (hs : Shows d p)
    (hp : ∀ v, p ≠ .size true v) (hq : ∀ v, q ≠ .size true v) (hleft : q.left = p.left) :
    Shows { d with state := q.state } q := by
  have hc := hs.counts hp
  refine shows_of_plain hq rfl ?_ (hleft ▸ hs.le) hc.1 hc.2
  rw [hleft]
  exact hs.left

theorem skipBlanks_spec {k value : Nat} {l : DecodeLoop} (hk : l.buf.length - l.src = k)
    (hl : l.Laid) (hs : Shows l.decoder (.sizeEnd value)) :
    Advances l (.sizeEnd value) (skipBlanks k l) (.sizeEnd value) [] ∧
      (skipBlanks k l).measure ≤ l.measure ∧ ((skipBlanks k l).ended = false →
        (skipBlanks k l).byte ≠ whitespace ∧ (skipBlanks k l).byte ≠ TAB) := by
  induction k generalizing l with
  | zero =>
    have hend : l.ended = true := by
      simp only [DecodeLoop.ended, ge_iff_le, decide_eq_true_eq]
      omega
    rw [skipBlanks]
    exact ⟨Advances.refl hl hs, le_rfl, fun h => absurd (hend.symm.trans h) (by decide)⟩
  | succ k ih =>
    have hend : l.ended = false := by
      simp only [DecodeLoop.ended, ge_iff_le, decide_eq_false_iff_not, not_le]
      omega
    rw [skipBlanks]
    by_cases hb : l.byte = whitespace ∨ l.byte = TAB
    · rw [if_pos (by simpa using hb)]
      have hn : (Phase.sizeEnd value).next l.decoder.consumeTrailer l.byte =
          .go (.sizeEnd value) [] := if_pos hb
      have hto := DecodeLoop.to_advance hl hend
      have hadv : Advances l (.sizeEnd value) l.advance (.sizeEnd value) [] :=
        ⟨hto, hs, chunked_go hend hn⟩
      have hm : l.advance.measure ≤ l.measure :=
        DecodeLoop.measure_le rfl (Nat.le_succ _) rfl
      obtain ⟨h, hm', hstop⟩ :=
        ih (l := l.advance) (by simp only [DecodeLoop.advance]; omega) hto.laid hs
      exact ⟨hadv.trans h, hm'.trans hm, hstop⟩
    · rw [if_neg (by simpa using hb)]
      exact ⟨Advances.refl hl hs, le_rfl, fun _ => not_or.mp hb⟩

/-! ### The data -/

theorem shiftDown_eq {n dst src : Nat} {buf : Bytes} (hle : dst ≤ src)
    (hlen : src + n ≤ buf.length) :
    shiftDown n buf dst src = buf.take dst ++ (slice buf src (src + n) ++ buf.drop (dst + n)) := by
  induction n generalizing buf dst src with
  | zero => simp [shiftDown, slice_self]
  | succ n ih =>
    have hdst : dst < buf.length := by omega
    rw [shiftDown, ih (by omega) (by simpa using by omega)]
    have hset : buf.set dst (buf.getD src 0) =
        buf.take dst ++ buf.getD src 0 :: buf.drop (dst + 1) := List.set_eq_take_append_cons_drop ..
          |>.trans (if_pos hdst)
    have htake : (buf.set dst (buf.getD src 0)).take (dst + 1) =
        buf.take dst ++ [buf.getD src 0] := by
      rw [hset, List.take_append, List.length_take, Nat.min_eq_left hdst.le,
        List.take_of_length_le ((List.length_take_le _ _).trans (Nat.le_succ _)),
        show dst + 1 - dst = 1 from by omega]
      rfl
    have hdrop : ∀ i, dst < i → (buf.set dst (buf.getD src 0)).drop i = buf.drop i := by
      intro i hi
      rw [List.drop_set, if_pos hi]
    rw [htake, slice_cons_getD buf (a := src) (by omega) hlen]
    have hslice : slice (buf.set dst (buf.getD src 0)) (src + 1) (src + 1 + n) =
        slice buf (src + 1) (src + (n + 1)) := by
      unfold slice
      rw [hdrop _ (by omega), show src + 1 + n = src + (n + 1) from by omega]
    rw [hslice, hdrop _ (by omega), show dst + 1 + n = dst + (n + 1) from by omega]
    simp

theorem moveData_buf {l : DecodeLoop} {n : Nat} (hl : l.Laid) (hn : l.src + n ≤ l.buf.length) :
    (moveData l n).buf =
      l.written ++ (slice l.buf l.src (l.src + n) ++ l.buf.drop (l.dst + n)) := by
  unfold moveData DecodeLoop.written
  dsimp only
  by_cases hne : l.dst ≠ l.src
  · rw [if_pos hne, shiftDown_eq hl.1 hn]
  · have heq : l.dst = l.src := by simpa using hne
    rw [if_neg hne, heq]
    unfold slice
    rw [show l.src + n - l.src = n from by omega, ← List.drop_drop, List.take_append_drop,
      List.take_append_drop]

theorem length_moveData {l : DecodeLoop} {n : Nat} (hl : l.Laid)
    (hn : l.src + n ≤ l.buf.length) : (moveData l n).buf.length = l.buf.length := by
  have hdst := hl.1
  rw [moveData_buf hl hn]
  simp only [DecodeLoop.written, List.length_append, List.length_take, length_slice,
    List.length_drop]
  omega

/-- The next `n` bytes. -/
def DecodeLoop.ahead (l : DecodeLoop) (n : Nat) : Bytes := slice l.buf l.src (l.src + n)

theorem DecodeLoop.length_ahead {l : DecodeLoop} {n : Nat} (hn : l.src + n ≤ l.buf.length) :
    (l.ahead n).length = n := by
  unfold DecodeLoop.ahead
  rw [length_slice]
  omega

theorem to_moveData {l : DecodeLoop} {n : Nat} (hl : l.Laid) (hn : l.src + n ≤ l.buf.length) :
    l.To (moveData l n) (l.ahead n) where
  length := length_moveData hl hn
  written := by
    have hdst := hl.1
    have hw : l.written.length = l.dst := by
      unfold DecodeLoop.written
      rw [List.length_take]
      omega
    have htotal : (l.written ++ l.ahead n).length = l.dst + n := by
      rw [List.length_append, hw, DecodeLoop.length_ahead hn]
    unfold DecodeLoop.written
    rw [moveData_buf hl hn, ← List.append_assoc]
    show List.take (l.dst + n) _ = _
    rw [← htotal]
    exact List.take_left
  dst := by rw [DecodeLoop.length_ahead hn]; rfl
  src := Nat.le_add_right _ _
  laid := by
    refine ⟨Nat.add_le_add_right hl.1 n, ?_⟩
    rw [length_moveData hl hn]
    exact hn
  consumeTrailer := rfl
  totalRead := rfl
  totalOverhead := rfl
  pendingBytes := rfl

/-- Moving bytes down touches nothing that is still to read. -/
theorem rest_moveData {l : DecodeLoop} {n : Nat} (hl : l.Laid) (hn : l.src + n ≤ l.buf.length) :
    l.rest = l.ahead n ++ (moveData l n).rest := by
  have hdst := hl.1
  have hpre : (l.written ++ l.ahead n).length = l.dst + n := by
    rw [List.length_append, DecodeLoop.length_ahead hn]
    unfold DecodeLoop.written
    rw [List.length_take]
    omega
  have hrest : (moveData l n).rest = l.buf.drop (l.src + n) := by
    unfold DecodeLoop.rest
    rw [moveData_buf hl hn, ← List.append_assoc]
    show List.drop (l.src + n) _ = _
    show List.drop (l.src + n) ((l.written ++ l.ahead n) ++ _) = _
    rw [List.drop_append, List.drop_of_length_le (by omega), List.nil_append, List.drop_drop, hpre]
    congr 1
    omega
  rw [hrest]
  unfold DecodeLoop.rest DecodeLoop.ahead slice
  rw [show l.src + n - l.src = n from by omega, ← List.drop_drop, List.take_append_drop]

/-- The machine over bytes that are all data. -/
theorem run_data (trailer : Bool) {bytes : Bytes} {more : Nat} (rest : Bytes)
    (h : bytes.length ≤ more) :
    (chunked trailer).run (.data more) (bytes ++ rest) =
      ((chunked trailer).run (.data (more - bytes.length)) rest).after bytes := by
  induction bytes generalizing more with
  | nil => simp
  | cons b bytes ih =>
    cases more with
    | zero => simp at h
    | succ more =>
      have hb : (Phase.data (more + 1)).next trailer b = .go (.data more) [b] := rfl
      rw [List.length_cons] at h
      rw [List.cons_append, chunked, Machine.run_ofNext_go hb, ← chunked, ih (by omega),
        Outcome.after_after, List.length_cons,
        show more + 1 - (bytes.length + 1) = more - bytes.length from by omega]
      rfl

/-- The machine over the last of a chunk's data. -/
theorem run_data_end (trailer : Bool) {bytes : Bytes} {more : Nat} (rest : Bytes)
    (h : bytes.length = more + 1) :
    (chunked trailer).run (.data more) (bytes ++ rest) =
      ((chunked trailer).run .dataCr rest).after bytes := by
  obtain ⟨init, b, rfl⟩ : ∃ init b, bytes = init ++ [b] :=
    ⟨_, _, (List.dropLast_append_getLast (List.ne_nil_of_length_eq_add_one h)).symm⟩
  have hinit : init.length = more := by simpa using h
  have hb : (Phase.data 0).next trailer b = .go .dataCr [b] := rfl
  rw [List.append_assoc, run_data trailer _ (by omega), hinit, Nat.sub_self, List.singleton_append,
    chunked, Machine.run_ofNext_go hb, ← chunked, Outcome.after_after]

/-! ## A turn -/

theorem follows_data {l : DecodeLoop} {more : Nat} (hl : l.Laid)
    (hs : Shows l.decoder (.data more)) : Follows l (.data more) (turn l) := by
  have hstate : l.decoder.state = .inChunkData := hs.state
  have hval : l.decoder.bytesLeftInChunk = (more + 1 : Nat) := hs.left
  have hc := hs.counts (by simp)
  have hle : ((more + 1 : Nat) : Int) ≤ intMax := hs.le
  have hsrc := hl.2
  unfold turn
  rw [hstate, hval]
  dsimp only
  by_cases havail : ((l.buf.length - l.src : Nat) : Int) < (more + 1 : Nat)
  · -- the chunk runs past the buffer: all of it is data
    rw [if_pos havail]
    have hn : l.src + (l.buf.length - l.src) ≤ l.buf.length := by omega
    have hto := to_moveData hl hn
    have hlen := DecodeLoop.length_ahead hn
    have hend : (moveData l (l.buf.length - l.src)).ended = true := by
      simp only [DecodeLoop.ended, hto.length, ge_iff_le, decide_eq_true_eq]
      show l.buf.length ≤ l.src + _
      omega
    refine .wait (q := .data (more - (l.buf.length - l.src))) ⟨hto, ?_, ?_⟩ hend
    · refine shows_of_plain (by simp) hstate ?_ ?_ hc.1 hc.2
      · show l.decoder.bytesLeftInChunk - _ = _
        rw [hval]
        simp only [Phase.left]
        omega
      · simp only [Phase.left]
        omega
    · rw [rest_moveData hl hn, run_data _ _ (by omega), hlen]
  · rw [if_neg havail, show ((more + 1 : Nat) : Int).toNat = more + 1 from rfl]
    have hn : l.src + (more + 1) ≤ l.buf.length := by omega
    have hto := to_moveData hl hn
    have hset := DecodeLoop.to_setState hto.laid .inChunkDataExpectCr
    have hto' := hto.trans hset
    rw [List.append_nil] at hto'
    refine .again (q := .dataCr) ⟨hto', ?_, ?_⟩
      (DecodeLoop.measure_lt hto'.length (by show l.src < l.src + (more + 1); omega) hto'.laid)
    · refine shows_of_plain (by simp) rfl ?_ (by decide) hc.1 hc.2
      show l.decoder.bytesLeftInChunk - _ = _
      rw [hval]
      simp [Phase.left]
    · rw [rest_moveData hl hn, run_data_end _ _ (DecodeLoop.length_ahead hn)]
      rfl

theorem follows_size {l : DecodeLoop} {started : Bool} {value : Nat} (hl : l.Laid)
    (hs : Shows l.decoder (.size started value)) : Follows l (.size started value) (turn l) := by
  have hstate : l.decoder.state = .inChunkSize := hs.state
  have h := sizeDigits_spec rfl hl hs
  unfold turn
  rw [hstate]
  dsimp only
  split at h
  · rename_i l' hscan
    obtain ⟨started', value', hadv, hm, hstop⟩ := h
    rw [hscan]
    dsimp only
    cases hend : l'.ended with
    | true => exact (follows_ended hadv.loop.laid hadv.shows hend).behind hadv hm
    | false =>
      -- the byte behind the digits is left to the next state
      obtain ⟨rfl, hnone⟩ := hstop hend
      have hn : (Phase.size true value').next l'.decoder.consumeTrailer l'.byte =
          (Phase.sizeEnd value').next l'.decoder.consumeTrailer l'.byte := by
        simp only [Phase.next, hnone, if_true]
      have hlaid := hadv.loop.laid
      refine Follows.behind hadv hm (.again (q := .sizeEnd value') (o := [])
        ⟨⟨rfl, (List.append_nil _).symm, rfl, le_rfl, hlaid, rfl, rfl, rfl, rfl⟩,
          shows_of_plain (by simp) rfl hadv.shows.left hadv.shows.le rfl rfl, ?_⟩ ?_)
      · rw [Outcome.after_nil]
        show _ = (chunked _).run _ l'.rest
        rw [DecodeLoop.rest_of_not_ended hend, chunked, Machine.run_ofNext_cons,
          Machine.run_ofNext_cons, hn]
      · have hst : l'.decoder.state = .inChunkSize := hadv.shows.state
        unfold DecodeLoop.measure
        rw [hst]
        simp
  · rename_i l' hscan
    rw [hscan]
    exact h

theorem follows_sizeEnd {l : DecodeLoop} {value : Nat} (hl : l.Laid)
    (hs : Shows l.decoder (.sizeEnd value)) : Follows l (.sizeEnd value) (turn l) := by
  have hstate : l.decoder.state = .inChunkSizeEnd := hs.state
  obtain ⟨hadv, hm, hstop⟩ := skipBlanks_spec rfl hl hs
  unfold turn
  rw [hstate]
  dsimp only
  refine Follows.behind hadv hm ?_
  generalize skipBlanks (l.buf.length - l.src) l = l' at hadv hstop
  have hlaid := hadv.loop.laid
  have hs' := hadv.shows
  cases hend : l'.ended with
  | true => exact follows_ended hlaid hs' hend
  | false =>
    have hblank : ¬ (l'.byte = whitespace ∨ l'.byte = TAB) := not_or.mpr (hstop hend)
    have hn : (Phase.sizeEnd value).next l'.decoder.consumeTrailer l'.byte =
        Phase.afterDigits value l'.byte := rfl
    unfold Phase.afterDigits at hn
    rw [if_neg hblank] at hn
    rw [if_neg Bool.false_ne_true]
    by_cases hsemi : l'.byte = SEMICOLON
    · rw [if_pos hsemi]
      rw [if_pos hsemi] at hn
      exact follows_byte hlaid hend hn (shows_next hs' (by simp) (by simp) rfl)
    · rw [if_neg hsemi]
      rw [if_neg hsemi] at hn
      by_cases hcr : l'.byte = CR
      · rw [if_pos hcr]
        rw [if_pos hcr] at hn
        exact follows_byte hlaid hend hn (shows_next hs' (by simp) (by simp) rfl)
      · rw [if_neg hcr]
        rw [if_neg hcr] at hn
        exact follows_refuse hlaid hs' hend hn

/-- The end of a size line: the trailers, the end of the body or the chunk's data. -/
theorem follows_headerLf {l : DecodeLoop} {value : Nat} (hl : l.Laid)
    (hs : Shows l.decoder (.headerLf value)) : Follows l (.headerLf value) (turn l) := by
  have hstate : l.decoder.state = .inChunkHeaderExpectLf := hs.state
  have hval : l.decoder.bytesLeftInChunk = value := hs.left
  unfold turn
  rw [hstate]
  refine expectTurn_follows (fun _ _ hb => if_neg hb) hl hs fun hend hb => ?_
  have hn : (Phase.headerLf value).next l.decoder.consumeTrailer l.byte =
      Phase.afterSizeLine l.decoder.consumeTrailer value := if_pos hb
  rw [DecodeLoop.decoder_advance, hval]
  cases value with
  | zero =>
    rw [if_pos (by rfl)]
    cases htr : l.decoder.consumeTrailer with
    | true =>
      rw [if_pos rfl]
      exact follows_byte (q := .trailerHead) hl hend (hn.trans (by simp [Phase.afterSizeLine, htr]))
        (shows_next hs (by simp) (by simp) rfl)
    | false =>
      rw [if_neg Bool.false_ne_true]
      have hto := DecodeLoop.to_advance hl hend
      exact .done hto hs.leftInRange rfl
        (chunked_halt hend (hn.trans (by simp [Phase.afterSizeLine, htr])))
  | succ more =>
    rw [if_neg (by omega)]
    exact follows_byte (q := .data more) hl hend hn (shows_next hs (by simp) (by simp) rfl)

/-- **A turn runs the machine over the bytes it takes.** -/
theorem turn_follows {l : DecodeLoop} {p : Phase} (hl : l.Laid) (hs : Shows l.decoder p) :
    Follows l p (turn l) := by
  have hstate := hs.state
  cases p with
  | size started value => exact follows_size hl hs
  | sizeEnd value => exact follows_sizeEnd hl hs
  | headerLf value => exact follows_headerLf hl hs
  | data more => exact follows_data hl hs
  | ext value =>
    unfold turn
    rw [hstate]
    exact scanTurn_follows (q := .headerLf value) (fun _ _ hb => if_neg hb) (fun _ => rfl) hl hs
      fun _ h => shows_next h (by simp) (by simp) rfl
  | dataCr =>
    unfold turn
    rw [hstate]
    exact expectTurn_follows (fun _ _ hb => if_neg hb) hl hs fun hend hb =>
      follows_byte (q := .dataLf) hl hend (if_pos hb) (shows_next hs (by simp) (by simp) rfl)
  | dataLf =>
    unfold turn
    rw [hstate]
    exact expectTurn_follows (fun _ _ hb => if_neg hb) hl hs fun hend hb =>
      follows_byte (q := .size false 0) hl hend (if_pos hb)
        (shows_next hs (by simp) (by simp) rfl)
  | trailerHead =>
    unfold turn
    rw [hstate]
    dsimp only [Phase.state]
    cases hend : l.ended with
    | true => exact follows_ended hl hs hend
    | false =>
      rw [if_neg Bool.false_ne_true]
      by_cases hcr : l.byte = CR
      · rw [if_pos hcr]
        exact follows_byte (q := .endLf) hl hend (if_pos hcr)
          (shows_next hs (by simp) (by simp) rfl)
      · rw [if_neg hcr]
        cases htok : isTokenChar l.byte with
        | true =>
          exact follows_byte (q := .trailerName) hl hend ((if_neg hcr).trans (if_pos htok))
            (shows_next hs (by simp) (by simp) rfl)
        | false =>
          exact follows_refuse hl hs hend ((if_neg hcr).trans (if_neg (by simp [htok])))
  | trailerName =>
    unfold turn
    rw [hstate]
    refine scanTurn_follows (q := .trailerValue) (fun _ b hb => ?_) (fun _ => rfl) hl hs
      fun _ h => shows_next h (by simp) (by simp) rfl
    show (if b = COLON then _ else _) = _
    rw [if_neg hb]
    cases isTokenChar b <;> rfl
  | trailerValue =>
    unfold turn
    rw [hstate]
    exact scanTurn_follows (q := .trailerLf) (fun _ _ hb => if_neg hb) (fun _ => rfl) hl hs
      fun _ h => shows_next h (by simp) (by simp) rfl
  | trailerLf =>
    unfold turn
    rw [hstate]
    exact expectTurn_follows (fun _ _ hb => if_neg hb) hl hs fun hend hb =>
      follows_byte (q := .trailerHead) hl hend (if_pos hb)
        (shows_next hs (by simp) (by simp) rfl)
  | endLf =>
    unfold turn
    rw [hstate]
    exact expectTurn_follows (fun _ _ hb => if_neg hb) hl hs fun hend hb =>
      .done (DecodeLoop.to_advance hl hend) hs.leftInRange rfl (chunked_halt hend (if_pos hb))

/-! ## A call -/

/-- **The loop runs the machine**, and the fuel `decode` gives it is enough. -/
theorem decodeLoop_follows {fuel : Nat} {l : DecodeLoop} {p : Phase} (hl : l.Laid)
    (hs : Shows l.decoder p) (hfuel : l.measure < fuel) :
    Follows l p (decodeLoop fuel l) ∧ ∀ l', decodeLoop fuel l ≠ .again l' := by
  -- on the fuel: every turn that goes round again has less before it
  induction fuel generalizing l p with
  | zero => omega
  | succ fuel ih =>
    have ht := turn_follows hl hs
    rw [decodeLoop]
    cases hturn : turn l with
    | leave ret l' =>
      rw [hturn] at ht
      exact ⟨ht, by simp⟩
    | refuse l' =>
      rw [hturn] at ht
      exact ⟨ht, by simp⟩
    | again l' =>
      rw [hturn] at ht
      cases ht with
      | again h hm =>
        obtain ⟨hf, hne⟩ := ih h.loop.laid h.shows (by omega)
        exact ⟨hf.behind h hm.le, hne⟩

/-- What a call leaves that took all of its bytes and answers -2. -/
structure Waits (d : HTTPChunkedDecoder) (buf : Bytes) (r : Decoded) (p : Phase) (out : Bytes) :
    Prop where
  ret : r.ret = -2
  shows : Shows r.decoder p
  consumeTrailer : r.decoder.consumeTrailer = d.consumeTrailer
  pendingBytes : r.decoder.pendingBytes = 0
  totalRead : r.decoder.totalRead = d.totalRead + buf.length
  totalOverhead : r.decoder.totalOverhead = d.totalOverhead + (buf.length - out.length : Int)
  size : r.size = out.length
  decoded : r.buf.take r.size = out
  length : r.buf.length = buf.length

/-- What a call leaves that completed the body. -/
structure Completes (d : HTTPChunkedDecoder) (buf : Bytes) (r : Decoded) (rest out : Bytes) :
    Prop where
  ret : r.ret = rest.length
  left : r.decoder.LeftInRange
  pendingBytes : r.decoder.pendingBytes = rest.length
  size : r.size = out.length
  decoded : r.buf.take r.size = out
  leftover : slice r.buf r.size (r.size + r.decoder.pendingBytes) = rest
  length : r.buf.length = buf.length

/-- What a call leaves that refused the body. -/
structure Refuses (d : HTTPChunkedDecoder) (buf : Bytes) (r : Decoded) : Prop where
  ret : r.ret = -1
  left : r.decoder.LeftInRange
  pendingBytes : r.decoder.pendingBytes = d.pendingBytes
  size : r.size ≤ buf.length
  length : r.buf.length = buf.length

/-- A call leaves what the machine's run says. -/
def CallEnds (d : HTTPChunkedDecoder) (buf : Bytes) (r : Decoded) :
    Outcome UInt8 Phase UInt8 Bool → Prop
  | .waiting p _ out => Waits d buf r p out
  | .closed true rest out => Completes d buf r rest out
  | .closed false _ _ => Refuses d buf r

/-- Behind the loop the buffer holds the decoded bytes, then those not read. -/
theorem finishCall_buf {l : DecodeLoop} (ret : Int) (hl : l.Laid) :
    (finishCall ret l).buf =
      l.written ++ (l.rest ++ l.buf.drop (l.dst + (l.buf.length - l.src))) := by
  have hsrc := hl.2
  have hmove : l.src + (l.buf.length - l.src) ≤ l.buf.length := by omega
  have heq := moveData_buf hl hmove
  have hrest : slice l.buf l.src (l.src + (l.buf.length - l.src)) = l.rest := by
    unfold slice DecodeLoop.rest
    rw [List.take_of_length_le]
    rw [List.length_drop]
    omega
  rw [hrest] at heq
  rw [← heq]
  unfold moveData finishCall
  dsimp only
  by_cases hne : l.dst ≠ l.src
  · by_cases hlt : l.src < l.buf.length
    · rw [if_pos ⟨hne, hlt⟩, if_pos hne]
    · rw [if_neg (fun h => hlt h.2), if_pos hne, show l.buf.length - l.src = 0 from by omega]
      rfl
  · rw [if_neg (fun h => hne h.1), if_neg hne]

theorem length_rest (l : DecodeLoop) : l.rest.length = l.buf.length - l.src := List.length_drop

theorem length_written {l : DecodeLoop} (hl : l.Laid) : l.written.length = l.dst := by
  have h1 := hl.1
  have h2 := hl.2
  unfold DecodeLoop.written
  rw [List.length_take]
  omega

theorem finishCall_decoded {l : DecodeLoop} (ret : Int) (hl : l.Laid) :
    (finishCall ret l).buf.take l.dst = l.written := by
  rw [finishCall_buf ret hl, ← length_written hl]
  exact List.take_left

theorem finishCall_leftover {l : DecodeLoop} (ret : Int) (hl : l.Laid) :
    slice (finishCall ret l).buf l.dst (l.dst + (l.buf.length - l.src)) = l.rest := by
  unfold slice
  rw [finishCall_buf ret hl, ← length_rest]
  rw [show l.dst + l.rest.length - l.dst = l.rest.length from by omega, ← length_written hl,
    List.drop_left, List.take_left]

theorem length_finishCall {l : DecodeLoop} (ret : Int) (hl : l.Laid) :
    (finishCall ret l).buf.length = l.buf.length := by
  have h1 := hl.1
  have h2 := hl.2
  rw [finishCall_buf ret hl, List.length_append, length_written hl, List.length_append,
    length_rest, List.length_drop]
  omega

/-- **A call is a run of the machine** from where the decoder stands. -/
theorem decodeCore_spec {d : HTTPChunkedDecoder} {p : Phase} (hs : Shows d p) (buf : Bytes) :
    CallEnds d buf (d.decodeCore buf) ((chunked d.consumeTrailer).run p buf) := by
  have hlaid : (DecodeLoop.mk d buf 0 0).Laid := ⟨le_rfl, Nat.zero_le _⟩
  have hfuel : (DecodeLoop.mk d buf 0 0).measure < 2 * buf.length + 2 := by
    unfold DecodeLoop.measure
    dsimp only
    split <;> omega
  obtain ⟨hf, hne⟩ := decodeLoop_follows hlaid hs hfuel
  unfold HTTPChunkedDecoder.decodeCore
  cases hloop : decodeLoop (2 * buf.length + 2) ⟨d, buf, 0, 0⟩ with
  | again l => exact absurd hloop (hne l)
  | refuse l =>
    rw [hloop] at hf
    cases hf with
    | refuse hto hleft hrun =>
      have hrun' : (chunked d.consumeTrailer).run p buf = _ := hrun
      have hb := hto.laid
      rw [hrun']
      exact ⟨rfl, hleft, hto.pendingBytes, hto.length ▸ hb.1.trans hb.2, hto.length⟩
  | leave ret l =>
    rw [hloop] at hf
    cases hf with
    | wait h hend =>
      rename_i p' out
      have hl := h.loop.laid
      have hs' := h.shows
      have hrun : (chunked d.consumeTrailer).run p buf =
          ((chunked d.consumeTrailer).run p' l.rest).after out := h.run
      have hlen : l.buf.length = buf.length := h.loop.length
      have hsrc : l.src = l.buf.length := DecodeLoop.src_of_ended hl hend
      have hdst : l.dst = out.length := h.loop.dst.trans (Nat.zero_add _)
      have hread : l.decoder.totalRead = d.totalRead := h.loop.totalRead
      have hover : l.decoder.totalOverhead = d.totalOverhead := h.loop.totalOverhead
      rw [hrun, chunked_ended hend, Outcome.after, List.append_nil]
      refine ⟨rfl, ⟨hs'.state, hs'.left, hs'.le, hs'.hex, hs'.sig⟩, h.loop.consumeTrailer, ?_,
        ?_, ?_, hdst, ?_, (length_finishCall _ hl).trans hlen⟩
      · show l.buf.length - l.src = 0
        omega
      · show l.decoder.totalRead + (l.src : Int) = _
        rw [hread, hsrc, hlen]
      · show l.decoder.totalOverhead + ((l.src : Int) - l.dst) = _
        rw [hover, hsrc, hlen, hdst]
      · exact (finishCall_decoded _ hl).trans h.loop.written
    | done hto hleft hret hrun =>
      have hl := hto.laid
      have hsrc := hl.2
      have hrun' : (chunked d.consumeTrailer).run p buf = _ := hrun
      rw [hrun']
      refine ⟨?_, hleft, (length_rest l).symm, hto.dst.trans (Nat.zero_add _),
        (finishCall_decoded _ hl).trans hto.written, finishCall_leftover _ hl,
        (length_finishCall _ hl).trans hto.length⟩
      show ret = _
      rw [hret, length_rest]
      omega

/-- A call that does not refuse has read all but what it leaves. -/
theorem totalRead_decodeCore {d : HTTPChunkedDecoder} {p : Phase} (hs : Shows d p) {buf : Bytes}
    (hret : (d.decodeCore buf).ret ≠ -1) :
    (d.decodeCore buf).decoder.totalRead + (d.decodeCore buf).decoder.pendingBytes
      = d.totalRead + buf.length := by
  have hlaid : (DecodeLoop.mk d buf 0 0).Laid := ⟨le_rfl, Nat.zero_le _⟩
  have hfuel : (DecodeLoop.mk d buf 0 0).measure < 2 * buf.length + 2 := by
    unfold DecodeLoop.measure
    dsimp only
    split <;> omega
  obtain ⟨hf, hne⟩ := decodeLoop_follows hlaid hs hfuel
  unfold HTTPChunkedDecoder.decodeCore at hret ⊢
  have hleave : ∀ (ret : Int) {l : DecodeLoop} {out : Bytes}, (DecodeLoop.mk d buf 0 0).To l out →
      (finishCall ret l).decoder.totalRead + (finishCall ret l).decoder.pendingBytes
        = d.totalRead + buf.length := by
    intro ret l out hto
    have hread : l.decoder.totalRead = d.totalRead := hto.totalRead
    have hlen : l.buf.length = buf.length := hto.length
    have hsrc := hto.laid.2
    show l.decoder.totalRead + (l.src : Int) + ((l.buf.length - l.src : Nat) : Int) = _
    rw [hread]
    omega
  cases hloop : decodeLoop (2 * buf.length + 2) ⟨d, buf, 0, 0⟩ with
  | again l => exact absurd hloop (hne l)
  | refuse l =>
    rw [hloop] at hret
    exact absurd rfl hret
  | leave ret l =>
    rw [hloop] at hf
    cases hf with
    | wait h _ => exact hleave _ h.loop
    | done hto _ _ _ => exact hleave _ hto

end MojoHttp
