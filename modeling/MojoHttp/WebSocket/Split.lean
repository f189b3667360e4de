import MojoHttp.WebSocket.Feed
import MojoHttp.Lib.Resumable

/-!
# The WebSocket parser does not see how its input was cut

`feed` works on an index into its buffer and on the result it has built so far. Both are
bookkeeping: what it does is a machine over the bytes, one act a frame, whose output is what each
frame adds to the result.

* **`frames_isResumable`** — a frame read off some bytes is read off any more.
* **`feedLoop_eq`** — the loop runs the machine.
* **`feed_split_invariant`** — so the reads can be cut anywhere.
-/

namespace MojoHttp

open Resumable

/-! ## Reading a frame off the front -/

theorem getD_drop (l : Bytes) (i k : Nat) : (l.drop i).getD k 0 = l.getD (i + k) 0 := by
  rw [List.getD_eq_getElem?_getD, List.getD_eq_getElem?_getD, List.getElem?_drop]

theorem slice_drop (l : Bytes) (i a b : Nat) : slice (l.drop i) a b = slice l (i + a) (i + b) := by
  unfold slice
  rw [List.drop_drop, show i + b - (i + a) = b - a from by omega]

theorem plen64At_drop (l : Bytes) (i k : Nat) : plen64At (l.drop i) k = plen64At l (i + k) := by
  unfold plen64At
  simp only [getD_drop, Nat.add_assoc]

theorem readLength_drop (maxMessageSize : Int) (l : Bytes) (i opcode b1 : Nat) :
    readLength maxMessageSize l i opcode b1 = readLength maxMessageSize (l.drop i) 0 opcode b1 := by
  unfold readLength
  simp only [getD_drop, plen64At_drop, List.length_drop, Nat.sub_zero, Nat.zero_add]

/-- Where the frame stands in the buffer does not matter. -/
theorem readFrame_drop (maxMessageSize : Int) (l : Bytes) (i : Nat) :
    readFrame maxMessageSize l i = readFrame maxMessageSize (l.drop i) 0 := by
  have hlen := readLength_drop maxMessageSize l i
  unfold readFrame
  simp only [hlen, getD_drop, slice_drop, List.length_drop, Nat.sub_zero, Nat.zero_add, Nat.add_zero,
    Nat.add_assoc]

theorem getD_append_of_lt {l : Bytes} (m : Bytes) {k : Nat} (h : k < l.length) :
    (l ++ m).getD k 0 = l.getD k 0 := by
  rw [List.getD_eq_getElem?_getD, List.getD_eq_getElem?_getD, List.getElem?_append_left h]

theorem slice_append_of_le {l : Bytes} (m : Bytes) {a b : Nat} (h : b ≤ l.length) :
    slice (l ++ m) a b = slice l a b := by
  unfold slice
  rcases Nat.le_total a b with hab | hba
  · rw [List.drop_append_of_le_length (by omega), List.take_append_of_le_length]
    rw [List.length_drop]
    omega
  · rw [Nat.sub_eq_zero_of_le hba, List.take_zero, List.take_zero]

theorem plen64At_append {l : Bytes} (m : Bytes) {k : Nat} (h : k + 8 ≤ l.length) :
    plen64At (l ++ m) k = plen64At l k := by
  have hbyte : ∀ j < 8, (l ++ m).getD (k + j) 0 = l.getD (k + j) 0 :=
    fun j hj => getD_append_of_lt m (by omega)
  unfold plen64At
  rw [show List.range 8 = [0, 1, 2, 3, 4, 5, 6, 7] from rfl]
  simp only [List.foldl_cons, List.foldl_nil, hbyte 0 (by omega), hbyte 1 (by omega),
    hbyte 2 (by omega), hbyte 3 (by omega), hbyte 4 (by omega), hbyte 5 (by omega),
    hbyte 6 (by omega), hbyte 7 (by omega)]

/-- A length field that is there does not change when more arrives. -/
theorem readLength_append {maxMessageSize : Int} {l : Bytes} (m : Bytes) {opcode b1 : Nat}
    (h : readLength maxMessageSize l 0 opcode b1 ≠ .short) :
    readLength maxMessageSize (l ++ m) 0 opcode b1 = readLength maxMessageSize l 0 opcode b1 := by
  unfold readLength at h ⊢
  simp only [Nat.sub_zero, Nat.zero_add] at h ⊢
  by_cases h126 : b1 &&& 0x7F = 126
  · simp only [if_pos h126] at h ⊢
    have hlen : ¬ l.length < 4 := fun hlt => h (if_pos hlt)
    have hlen' : ¬ (l ++ m).length < 4 := by rw [List.length_append]; omega
    rw [if_neg hlen, if_neg hlen', getD_append_of_lt m (by omega), getD_append_of_lt m (by omega)]
  · simp only [if_neg h126] at h ⊢
    by_cases h127 : b1 &&& 0x7F = 127
    · simp only [if_pos h127] at h ⊢
      have hlen : ¬ l.length < 10 := fun hlt => h (if_pos hlt)
      have hlen' : ¬ (l ++ m).length < 10 := by rw [List.length_append]; omega
      rw [if_neg hlen, if_neg hlen', plen64At_append m (by omega)]
    · rw [if_neg h127, if_neg h127]

/-- **A frame read off some bytes is read off any more**, and so is a violation. -/
theorem readFrame_append {maxMessageSize : Int} {l : Bytes} (m : Bytes)
    (h : readFrame maxMessageSize l 0 ≠ .short) :
    readFrame maxMessageSize (l ++ m) 0 = readFrame maxMessageSize l 0 := by
  have hlen : ¬ l.length - 0 < 2 := by
    intro hlt
    unfold readFrame at h
    exact h (if_pos hlt)
  have hlen' : ¬ (l ++ m).length - 0 < 2 := by rw [List.length_append]; omega
  unfold readFrame at h ⊢
  simp only [if_neg hlen, if_neg hlen'] at h ⊢
  rw [getD_append_of_lt m (show 0 < l.length by omega),
    getD_append_of_lt m (show 0 + 1 < l.length by omega)]
  generalize (l.getD 0 0).toNat = b0 at h ⊢
  generalize (l.getD (0 + 1) 0).toNat = b1 at h ⊢
  by_cases hrsv : b0 &&& 0x70 ≠ 0
  · rw [if_pos hrsv, if_pos hrsv]
  · rw [if_neg hrsv] at h ⊢
    rw [if_neg hrsv]
    by_cases hmask : b1 &&& 0x80 = 0
    · rw [if_pos hmask, if_pos hmask]
    · rw [if_neg hmask] at h ⊢
      rw [if_neg hmask]
      have hshort : readLength maxMessageSize l 0 (b0 &&& 0x0F) b1 ≠ .short := by
        intro hs
        rw [hs] at h
        exact h rfl
      rw [readLength_append m hshort]
      cases hl : readLength maxMessageSize l 0 (b0 &&& 0x0F) b1 with
      | short => exact absurd hl hshort
      | bad code => rfl
      | length header plen =>
        rw [hl] at h
        dsimp only at h ⊢
        by_cases hctl : b0 &&& 0x0F ≥ 0x8 ∧ plen > 125
        · rw [if_pos hctl, if_pos hctl]
        · rw [if_neg hctl] at h ⊢
          rw [if_neg hctl]
          by_cases hbig : (plen : Int) > maxMessageSize
          · rw [if_pos hbig, if_pos hbig]
          · rw [if_neg hbig] at h ⊢
            rw [if_neg hbig]
            have hall : ¬ l.length - 0 < header + 4 + plen := fun hlt => h (if_pos hlt)
            have hall' : ¬ (l ++ m).length - 0 < header + 4 + plen := by
              rw [List.length_append]
              omega
            rw [if_neg hall, if_neg hall', slice_append_of_le m (by omega),
              slice_append_of_le m (by omega)]

/-- A frame is not empty, and it is all there. -/
theorem size_of_readFrame {maxMessageSize : Int} {l payload : Bytes} {fin : Bool}
    {opcode size : Nat} (h : readFrame maxMessageSize l 0 = .frame fin opcode payload size) :
    0 < size ∧ size ≤ l.length := by
  unfold readFrame at h
  dsimp only at h
  -- every other way out of `readFrame` is no frame
  repeat' split at h
  all_goals cases h
  omega

/-! ## What a frame adds to the result -/

/-- Nothing has closed yet. -/
def WSParseResult.IsOpen (r : WSParseResult) : Prop := r.closeAfterReply = false ∧ r.closeCode = -1

theorem WSParseResult.append_assoc (a b c : WSParseResult) :
    (a.append b).append c = a.append (b.append c) := by
  simp [append, List.append_assoc]

/-- Results joined onto one another, onto `x`. -/
theorem WSParseResult.foldr_append (rs : List WSParseResult) (x : WSParseResult) :
    rs.foldr append x = (rs.foldr append {}).append x := by
  induction rs with
  | nil => rfl
  | cons r rs ih => rw [List.foldr_cons, List.foldr_cons, append_assoc, ih]

@[simp] theorem WSParseResult.empty_append (a : WSParseResult) : append {} a = a := rfl

theorem WSParseResult.append_empty {a : WSParseResult} (h : a.IsOpen) : a.append {} = a := by
  obtain ⟨h1, h2⟩ := h
  cases a
  simp_all [append]

/-- The parser without its buffer. -/
def WSState.idle (st : WSState) : WSState := { st with buffer := [] }

/-- The same step behind an earlier result, the buffer kept. -/
def Taken.behind (buffer : Bytes) (res : WSParseResult) : Taken → Taken
  | .again st r => .again { st with buffer } (res.append r)
  | .closed st r => .closed st (res.append r)

theorem Taken.behind_ite (buffer : Bytes) (res : WSParseResult) (c : Prop) [Decidable c]
    (a b : Taken) : (if c then a else b).behind buffer res =
      if c then a.behind buffer res else b.behind buffer res :=
  apply_ite (Taken.behind buffer res) c a b

theorem fail_result (st : WSState) (res : WSParseResult) (code : Nat) :
    (st.fail res code).2 = res.append (st.idle.fail {} code).2 := by
  simp [WSState.fail, WSParseResult.append]

theorem Taken.behind_fail (st : WSState) (res : WSParseResult) (code : Nat) :
    (Taken.fail st.idle {} code).behind st.buffer res = .fail st res code := by
  simp [Taken.fail, Taken.behind, WSState.fail, WSState.idle, WSParseResult.append]

theorem takeClose_behind (st : WSState) (res : WSParseResult) (payload : Bytes) :
    takeClose st res payload = (takeClose st.idle {} payload).behind st.buffer res := by
  unfold takeClose
  dsimp only
  rw [Taken.behind_ite, Taken.behind_ite, Taken.behind_ite]
  simp only [Taken.behind_fail]
  simp [Taken.behind, WSState.idle, WSParseResult.append]

/-- A step that adds nothing. -/
theorem Taken.behind_again {res : WSParseResult} (hres : res.IsOpen) (st : WSState) :
    (Taken.again st.idle {}).behind st.buffer res = .again st res := by
  rw [Taken.behind, WSParseResult.append_empty hres]
  rfl

/-- A step that adds a message. -/
theorem Taken.behind_message {res : WSParseResult} (hres : res.IsOpen) (st : WSState)
    (opcode : Nat) (payload : Bytes) :
    (Taken.again st.idle { msgOpcodes := [] ++ [opcode], msgPayloads := [] ++ [payload] }).behind
        st.buffer res =
      .again st { res with
        msgOpcodes := res.msgOpcodes ++ [opcode], msgPayloads := res.msgPayloads ++ [payload] } := by
  simp [Taken.behind, WSState.idle, WSParseResult.append, hres.1, hres.2]

theorem takeCont_behind {st : WSState} {res : WSParseResult} (hres : res.IsOpen) (fin : Bool)
    (payload : Bytes) :
    takeCont st res fin payload = (takeCont st.idle {} fin payload).behind st.buffer res := by
  have hfail := fun st : WSState => Taken.behind_fail st res
  cases st with
  | mk buffer fragOpcode fragPayload maxMessageSize =>
    cases fragOpcode with
    | none => exact (hfail _ _).symm
    | some fragOpcode =>
      have hagain := Taken.behind_again hres
        ⟨buffer, some fragOpcode, fragPayload ++ payload, maxMessageSize⟩
      have hmessage := Taken.behind_message hres ⟨buffer, none, [], maxMessageSize⟩ fragOpcode
        (fragPayload ++ payload)
      have htext := hfail ⟨buffer, some fragOpcode, fragPayload ++ payload, maxMessageSize⟩
        WS_CLOSE_INVALID_DATA
      have hbig := hfail ⟨buffer, some fragOpcode, fragPayload, maxMessageSize⟩ WS_CLOSE_TOO_BIG
      show _ = (takeCont ⟨[], some fragOpcode, fragPayload, maxMessageSize⟩ {} fin
        payload).behind buffer res
      unfold takeCont
      dsimp only
      rw [Taken.behind_ite, Taken.behind_ite, Taken.behind_ite, ← hagain, ← hmessage, ← htext, ← hbig]
      rfl

/-- **A frame adds to the result and reads none of it**, nor of the buffer. -/
theorem takeFrame_behind {st : WSState} {res : WSParseResult} (hres : res.IsOpen) (fin : Bool)
    (opcode : Nat) (payload : Bytes) :
    takeFrame st res fin opcode payload =
      (takeFrame st.idle {} fin opcode payload).behind st.buffer res := by
  have hfail := Taken.behind_fail st res
  have hagain := Taken.behind_again hres st
  have hfirst := Taken.behind_again hres { st with fragOpcode := some opcode, fragPayload := payload }
  have hmessage := Taken.behind_message hres st opcode payload
  have hping : (Taken.again st.idle { reply := [] ++ encodeWsFrame WS_OP_PONG payload }).behind
      st.buffer res =
        .again st { res with reply := res.reply ++ encodeWsFrame WS_OP_PONG payload } := by
    simp [Taken.behind, WSState.idle, WSParseResult.append, hres.1, hres.2]
  unfold takeFrame
  simp only [Taken.behind_ite]
  rw [hfail, hping, hagain, hmessage, ← takeClose_behind, ← takeCont_behind hres, hfail,
    ← hfirst]
  rfl

/-- A step tells in the result whether it returns. -/
def Taken.Told : Taken → Prop
  | .again _ r => r.IsOpen
  | .closed _ r => r.closeAfterReply = true

theorem Taken.Told.ite {c : Prop} [Decidable c] {a b : Taken} (ha : a.Told) (hb : b.Told) :
    (if c then a else b).Told := by
  split
  · exact ha
  · exact hb

theorem Taken.told_fail (st : WSState) (res : WSParseResult) (code : Nat) :
    (Taken.fail st res code).Told := rfl

theorem takeClose_told (st : WSState) (payload : Bytes) : (takeClose st {} payload).Told := by
  refine .ite (Taken.told_fail ..) (.ite (Taken.told_fail ..) (.ite (Taken.told_fail ..) ?_))
  rfl

theorem takeCont_told (st : WSState) (fin : Bool) (payload : Bytes) :
    (takeCont st {} fin payload).Told := by
  unfold takeCont
  cases st.fragOpcode with
  | none => exact Taken.told_fail ..
  | some fragOpcode =>
    refine .ite (Taken.told_fail ..) (.ite (.ite (Taken.told_fail ..) ?_) ?_)
    · exact ⟨rfl, rfl⟩
    · exact ⟨rfl, rfl⟩

theorem takeFrame_told (st : WSState) (fin : Bool) (opcode : Nat) (payload : Bytes) :
    (takeFrame st {} fin opcode payload).Told := by
  have hopen : ({} : WSParseResult).IsOpen := ⟨rfl, rfl⟩
  unfold takeFrame
  refine .ite ?control (.ite ?data (.ite (takeCont_told ..) (Taken.told_fail ..)))
  case control =>
    refine .ite (Taken.told_fail ..) (.ite ?_ (.ite hopen (.ite (takeClose_told ..) (Taken.told_fail ..))))
    exact ⟨rfl, rfl⟩
  case data =>
    refine .ite (Taken.told_fail ..) (.ite (.ite (Taken.told_fail ..) ?_) hopen)
    exact ⟨rfl, rfl⟩

/-- A step that goes on has closed nothing. -/
theorem Taken.isOpen_of_again {st st' : WSState} {fin : Bool} {opcode : Nat} {payload : Bytes}
    {r : WSParseResult} (h : takeFrame st {} fin opcode payload = .again st' r) : r.IsOpen := by
  have htold := takeFrame_told st fin opcode payload
  rw [h] at htold
  exact htold

/-- A step that returns has closed. -/
theorem Taken.closes_of_closed {st st' : WSState} {fin : Bool} {opcode : Nat} {payload : Bytes}
    {r : WSParseResult} (h : takeFrame st {} fin opcode payload = .closed st' r) :
    r.closeAfterReply = true := by
  have htold := takeFrame_told st fin opcode payload
  rw [h] at htold
  exact htold

/-! ## The machine -/

/-- One act a frame, on a parser without a buffer. Its output is what the frame adds. -/
def frames : Machine UInt8 WSState WSParseResult WSParseResult where
  step st l :=
    match readFrame st.maxMessageSize l 0 with
    | .short => .more
    | .bad code => .halt 0 [] (st.fail {} code).2
    | .frame fin opcode payload size =>
      match takeFrame st.idle {} fin opcode payload with
      | .again st' r => .take size st'.idle [r]
      | .closed _ r => .halt size [] r

section Step

variable {st st' : WSState} {l payload : Bytes} {fin : Bool} {opcode size code : Nat}
  {r : WSParseResult}

theorem frames_step_short (h : readFrame st.maxMessageSize l 0 = .short) :
    frames.step st l = .more := by
  simp only [frames, h]

theorem frames_step_bad (h : readFrame st.maxMessageSize l 0 = .bad code) :
    frames.step st l = .halt 0 [] (st.fail {} code).2 := by
  simp only [frames, h]

theorem frames_step_again (h : readFrame st.maxMessageSize l 0 = .frame fin opcode payload size)
    (ht : takeFrame st.idle {} fin opcode payload = .again st' r) :
    frames.step st l = .take size st'.idle [r] := by
  simp only [frames, h, ht]

theorem frames_step_closed (h : readFrame st.maxMessageSize l 0 = .frame fin opcode payload size)
    (ht : takeFrame st.idle {} fin opcode payload = .closed st' r) :
    frames.step st l = .halt size [] r := by
  simp only [frames, h, ht]

/-- An act is taken on a frame or a violation. -/
theorem frames_step_append (m : Bytes) (h : frames.step st l ≠ .more) :
    frames.step st (l ++ m) = frames.step st l := by
  have hread : readFrame st.maxMessageSize l 0 ≠ .short := fun hs => h (frames_step_short hs)
  simp only [frames, readFrame_append m hread]

end Step

theorem frames_isResumable : frames.IsResumable where
  take_pos := by
    intro st l n st' out h
    simp only [frames] at h
    split at h
    · cases h
    · cases h
    · rename_i hread
      split at h
      · cases h
        exact size_of_readFrame hread
      · cases h
  halt_le := by
    intro st l n out t h
    simp only [frames] at h
    split at h
    · cases h
    · cases h
      exact Nat.zero_le _
    · rename_i hread
      split at h
      · cases h
      · cases h
        exact (size_of_readFrame hread).2
  take_append := by
    intro st l n st' out m h
    rw [frames_step_append m (by rw [h]; simp), h]
  halt_append := by
    intro st l n out t m h
    rw [frames_step_append m (by rw [h]; simp), h]

/-- The result a run comes to. -/
def collect : Resumable.Outcome UInt8 WSState WSParseResult WSParseResult → WSParseResult
  | .waiting _ _ out => out.foldr .append {}
  | .closed r _ out => out.foldr .append r

theorem collect_after (pre : List WSParseResult)
    (o : Resumable.Outcome UInt8 WSState WSParseResult WSParseResult) :
    collect (o.after pre) = pre.foldr .append (collect o) := by
  cases o <;> simp [collect, Outcome.after, List.foldr_append]

/-- What the loop returns, by how the machine's run ends. -/
def LoopEnds (res : WSParseResult) (r : WSState × WSParseResult) :
    Resumable.Outcome UInt8 WSState WSParseResult WSParseResult → Prop
  | .waiting st tail out =>
    r = ({ st with buffer := tail }, res.append (out.foldr .append {})) ∧
      st = st.idle ∧ r.2.IsOpen
  | .closed t _ out => r.2 = res.append (out.foldr .append t) ∧ r.2.closeAfterReply = true

theorem LoopEnds.after {res r : WSParseResult} {x : WSState × WSParseResult}
    {o : Resumable.Outcome UInt8 WSState WSParseResult WSParseResult} (h : LoopEnds (res.append r) x o) :
    LoopEnds res x (o.after [r]) := by
  cases o with
  | waiting st tail out =>
    obtain ⟨hx, hidle⟩ := h
    exact ⟨by rw [hx, WSParseResult.append_assoc]; rfl, hidle⟩
  | closed t rest out =>
    obtain ⟨hx, hclose⟩ := h
    exact ⟨by rw [hx, WSParseResult.append_assoc]; rfl, hclose⟩

/-- **The loop runs the machine** over what stands from `i` on. -/
theorem feedLoop_eq {fuel i : Nat} {st : WSState} {res : WSParseResult}
    (hfuel : st.buffer.length - i < fuel) (hres : res.IsOpen) :
    LoopEnds res (feedLoop fuel st res i) (frames.run st.idle (st.buffer.drop i)) := by
  -- on the fuel: a frame is not empty
  induction fuel generalizing st res i with
  | zero => omega
  | succ fuel ih =>
    have hdrop : readFrame st.maxMessageSize st.buffer i =
        readFrame st.idle.maxMessageSize (st.buffer.drop i) 0 :=
      readFrame_drop st.maxMessageSize st.buffer i
    rw [Machine.run_eq frames_isResumable]
    unfold feedLoop
    cases hread : readFrame st.maxMessageSize st.buffer i with
    | short =>
      rw [hdrop] at hread
      rw [frames_step_short hread]
      refine ⟨?_, rfl, hres⟩
      have htail : (if i > 0 then slice st.buffer i st.buffer.length else st.buffer) =
          st.buffer.drop i := by
        by_cases hi : i > 0
        · rw [if_pos hi]
          exact List.take_of_length_le (by rw [List.length_drop])
        · rw [if_neg hi, show i = 0 from by omega]
          rfl
      dsimp only
      rw [htail, List.foldr_nil, WSParseResult.append_empty hres]
      rfl
    | bad code =>
      rw [hdrop] at hread
      rw [frames_step_bad hread]
      exact ⟨fail_result st res code, rfl⟩
    | frame fin opcode payload size =>
      rw [hdrop] at hread
      dsimp only
      rw [takeFrame_behind hres]
      have hsize := size_of_readFrame hread
      rw [List.length_drop] at hsize
      cases htake : takeFrame st.idle {} fin opcode payload with
      | closed st' r =>
        rw [frames_step_closed hread htake]
        refine ⟨rfl, ?_⟩
        show r.closeAfterReply = true
        exact Taken.closes_of_closed htake
      | again st' r =>
        rw [frames_step_again hread htake]
        dsimp only
        rw [List.drop_drop]
        have hrun := @ih (i + size) { st' with buffer := st.buffer } (res.append r)
        refine LoopEnds.after (hrun ?_ ?_)
        · show st.buffer.length - (i + size) < fuel
          omega
        · show r.IsOpen
          exact Taken.isOpen_of_again htake

/-- A parser that waits for more than it holds. -/
def WSState.Waiting (st : WSState) : Prop := frames.step st.idle st.buffer = .more

/-- A call runs the machine over what was kept and what arrived. -/
theorem feed_eq (st : WSState) (data : Bytes) :
    LoopEnds {} (st.feed data) (frames.run st.idle (st.buffer ++ data)) := by
  have h := @feedLoop_eq ((st.buffer ++ data).length + 1) 0 { st with buffer := st.buffer ++ data } {}
    (by simp) ⟨rfl, rfl⟩
  exact h

/-- Reads fed in order run the machine over their concatenation. -/
theorem feedReads_eq {st : WSState} (hst : st.Waiting) (reads : List Bytes) :
    st.feedReads reads = collect (frames.run st.idle (st.buffer ++ reads.flatten)) := by
  rw [← Machine.feed_eq frames_isResumable hst]
  induction reads generalizing st with
  | nil => rfl
  | cons data reads ih =>
    have hfeed := feed_eq st data
    unfold WSState.feedReads Machine.feed
    cases hrun : frames.run st.idle (st.buffer ++ data) with
    | closed t rest out =>
      rw [hrun] at hfeed
      obtain ⟨hr, hclose⟩ := hfeed
      dsimp only
      rw [if_pos hclose, hr]
      rfl
    | waiting st' tail out =>
      rw [hrun] at hfeed
      obtain ⟨hr, hidle, hopen⟩ := hfeed
      have hwait : ({ st' with buffer := tail } : WSState).Waiting := by
        show frames.step st'.idle tail = .more
        rw [← hidle]
        exact Machine.step_of_run_waiting frames_isResumable hrun
      have hrest := ih hwait
      dsimp only
      rw [if_neg (by rw [hopen.1]; decide), hr]
      dsimp only
      rw [hrest, collect_after, WSParseResult.empty_append,
        WSParseResult.foldr_append out (collect _), show ({ st' with buffer := tail } : WSState).idle = st' from hidle.symm]

/-- What one call returns. -/
theorem feed_result (st : WSState) (data : Bytes) :
    (st.feed data).2 = collect (frames.run st.idle (st.buffer ++ data)) := by
  have h := feed_eq st data
  cases hrun : frames.run st.idle (st.buffer ++ data) with
  | closed t rest out =>
    rw [hrun] at h
    exact h.1
  | waiting st' tail out =>
    rw [hrun] at h
    rw [h.1]
    rfl

end MojoHttp
