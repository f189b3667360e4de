import MojoHttp.Http.ChunkedMachine

/-!
# The chunked decoder does not see how a body was cut

A decoder kept over several reads is handed the bytes one read at a time. `decode` is a run of a
machine that takes one byte at every act, so where the cuts fall does not matter.

* **`Reached`** — the decoders a connection can hold between two calls.
* **`decodePieces_eq`** — feeding the pieces is one run of the machine over their concatenation.
* **`chunked_split_invariant`** — so it answers what one call on the whole answers, and the bytes
  a call keeps are the ones it did not consume.
-/

namespace MojoHttp

open BytesConstant Resumable

/-- A decoder as some calls, each of which asked for more, have left it. -/
inductive Reached (consumeTrailer : Bool) : HTTPChunkedDecoder → Prop where
  | fresh : Reached consumeTrailer (HTTPChunkedDecoder.fresh consumeTrailer)
  | call {d : HTTPChunkedDecoder} (buf : Bytes) (h : Reached consumeTrailer d)
      (hret : (d.decode buf).ret = -2) : Reached consumeTrailer (d.decode buf).decoder

namespace HTTPChunkedDecoder

theorem decode_of_not_guardFires {d : HTTPChunkedDecoder} {buf : Bytes}
    (h : d.guardFires buf = false) : d.decode buf = d.decodeCore buf := by
  unfold guardFires at h
  unfold decode
  dsimp only
  rw [if_neg (by simpa using h)]

theorem decode_of_ret {d : HTTPChunkedDecoder} {buf : Bytes} (h : (d.decodeCore buf).ret ≠ -2) :
    d.decode buf = d.decodeCore buf := by
  unfold decode
  dsimp only
  rw [if_neg (fun hc => h hc.1)]

/-- The guard leaves everything but the answer. -/
theorem decode_eq (d : HTTPChunkedDecoder) (buf : Bytes) :
    d.decode buf = { d.decodeCore buf with ret := (d.decode buf).ret } := by
  unfold decode
  dsimp only
  split <;> rfl

theorem ret_of_decode_waiting {d : HTTPChunkedDecoder} {buf : Bytes}
    (h : (d.decode buf).ret = -2) :
    d.decode buf = d.decodeCore buf := by
  cases hg : d.guardFires buf with
  | false => exact decode_of_not_guardFires hg
  | true =>
    unfold guardFires at hg
    unfold decode at h
    dsimp only at h
    rw [if_pos (by simpa using hg)] at h
    cases h

end HTTPChunkedDecoder

/-- A call that asks for more ran the machine to its waiting. -/
theorem waits_of_ret {d : HTTPChunkedDecoder} {buf : Bytes} {r : Decoded}
    {o : Outcome UInt8 Phase UInt8 Bool} (h : CallEnds d buf r o) (hret : r.ret = -2) :
    ∃ p' tail out, o = .waiting p' tail out ∧ Waits d buf r p' out := by
  cases o with
  | waiting p' tail out => exact ⟨p', tail, out, rfl, h⟩
  | closed t rest out =>
    cases t with
    | true =>
      have hc : r.ret = (rest.length : Int) := h.ret
      omega
    | false =>
      have hc : r.ret = -1 := h.ret
      omega

/-- **What every reached decoder shows.** -/
theorem Reached.shows {consumeTrailer : Bool} {d : HTTPChunkedDecoder}
    (h : Reached consumeTrailer d) :
    ∃ p, Shows d p ∧ d.consumeTrailer = consumeTrailer ∧ d.pendingBytes = 0 := by
  induction h with
  | fresh => exact ⟨_, shows_fresh consumeTrailer, rfl, rfl⟩
  | @call d buf h hret ih =>
    obtain ⟨p, hs, htr, hpend⟩ := ih
    have heq := HTTPChunkedDecoder.ret_of_decode_waiting hret
    rw [heq] at hret ⊢
    obtain ⟨p', tail, out, -, hw⟩ := waits_of_ret (decodeCore_spec hs buf) hret
    exact ⟨p', hw.shows, hw.consumeTrailer.trans htr, hw.pendingBytes⟩

/-- The answer a run of the machine comes to, behind what was decoded before. -/
def BodyAnswer.ofOutcome (decoded : Bytes) : Outcome UInt8 Phase UInt8 Bool → BodyAnswer
  | .waiting _ tail out => .needMore (decoded ++ out) tail
  | .closed true rest out => .complete (decoded ++ out) rest
  | .closed false _ _ => .error

theorem BodyAnswer.ofOutcome_after (decoded out : Bytes) (o : Outcome UInt8 Phase UInt8 Bool) :
    ofOutcome decoded (o.after out) = ofOutcome (decoded ++ out) o := by
  cases o with
  | waiting p tail out' => simp [ofOutcome, Outcome.after]
  | closed t rest out' => cases t <;> simp [ofOutcome, Outcome.after]

/-- Bytes fed one piece after another, guard aside, are fed to the machine. -/
theorem decodePieces_eq_feed {d : HTTPChunkedDecoder} {p : Phase} (hs : Shows d p)
    (decoded : Bytes) (pieces : List Bytes) (hg : guardFiresInPieces d [] pieces = false) :
    decodePieces d decoded [] pieces =
      .ofOutcome decoded ((chunked d.consumeTrailer).feed p [] pieces) := by
  induction pieces generalizing d p decoded with
  | nil => simp [decodePieces, Machine.feed, BodyAnswer.ofOutcome]
  | cons piece pieces ih =>
    unfold guardFiresInPieces at hg
    dsimp only at hg
    rw [Bool.or_eq_false_iff] at hg
    obtain ⟨hg1, hg2⟩ := hg
    have hcall := decodeCore_spec hs ([] ++ piece)
    unfold decodePieces Machine.feed
    dsimp only
    rw [HTTPChunkedDecoder.decode_of_not_guardFires hg1] at hg2 ⊢
    generalize d.decodeCore ([] ++ piece) = r at hcall hg2 ⊢
    cases ho : (chunked d.consumeTrailer).run p ([] ++ piece) with
    | waiting p' tail out =>
      rw [ho] at hcall
      have hw : Waits d ([] ++ piece) r p' out := hcall
      have htail : tail = [] := Machine.tail_of_ofNext_waiting ho
      have hkept : slice r.buf r.size (r.size + r.decoder.pendingBytes) = [] := by
        rw [hw.pendingBytes]
        exact slice_self _ _
      rw [hkept, hw.ret, beq_self_eq_true, Bool.true_and] at hg2
      rw [hkept, hw.ret, if_neg (by decide), if_pos rfl, hw.decoded]
      dsimp only
      rw [BodyAnswer.ofOutcome_after, htail, ih hw.shows (decoded ++ out) hg2, hw.consumeTrailer]
    | closed t rest out =>
      rw [ho] at hcall
      cases t with
      | true =>
        have hc : Completes d ([] ++ piece) r rest out := hcall
        have hret := hc.ret
        rw [if_neg (by omega), if_neg (by omega), hc.decoded, hc.leftover]
        rfl
      | false =>
        have hc : Refuses d ([] ++ piece) r := hcall
        rw [if_pos hc.ret]
        rfl

/-- **Feeding the pieces is one run over their concatenation.** -/
theorem decodePieces_eq {d : HTTPChunkedDecoder} {p : Phase} (hs : Shows d p) (decoded : Bytes)
    (pieces : List Bytes) (hg : guardFiresInPieces d [] pieces = false) :
    decodePieces d decoded [] pieces =
      .ofOutcome decoded ((chunked d.consumeTrailer).run p pieces.flatten) := by
  rw [decodePieces_eq_feed hs decoded pieces hg]
  exact congrArg _ (Machine.feed_eq Machine.ofNext_isResumable rfl pieces)

/-- The undecoded tail of a call: what it has not counted as read. -/
def undecodedTail (d : HTTPChunkedDecoder) (buf : Bytes) : Bytes :=
  buf.drop ((d.decode buf).decoder.totalRead - d.totalRead).toNat

/-- What a call that asks for more keeps is what it did not consume. -/
theorem pending_eq_undecodedTail {consumeTrailer : Bool} {d : HTTPChunkedDecoder}
    (hd : Reached consumeTrailer d) {buf : Bytes} (hret : (d.decode buf).ret = -2) :
    let r := d.decode buf
    slice r.buf r.size (r.size + r.decoder.pendingBytes) = undecodedTail d buf ∧
      r.decoder.pendingBytes = (undecodedTail d buf).length := by
  obtain ⟨p, hs, -, -⟩ := hd.shows
  have heq := HTTPChunkedDecoder.ret_of_decode_waiting hret
  unfold undecodedTail
  dsimp only
  rw [heq] at hret ⊢
  obtain ⟨p', tail, out, -, hw⟩ := waits_of_ret (decodeCore_spec hs buf) hret
  rw [hw.pendingBytes, hw.totalRead, Nat.add_zero, slice_self,
    show (d.totalRead + buf.length - d.totalRead).toNat = buf.length from by omega,
    List.drop_length]
  exact ⟨rfl, rfl⟩

/-- **The chunked decoder is split-invariant.** Whatever the cuts, as long as the overhead guard
fires neither in the calls on the pieces nor in the one on the whole, the answer, the decoded
bytes and what is left over are the same. A call that asks for more keeps, behind its decoded
bytes, the bytes it has not consumed. -/
theorem chunked_split_invariant :
    (∀ pieces : List Bytes,
      guardFiresInPieces (.fresh true) [] pieces = false →
      guardFiresInPieces (.fresh true) [] [pieces.flatten] = false →
      decodePieces (.fresh true) [] [] pieces = decodePieces (.fresh true) [] [] [pieces.flatten]) ∧
    ∀ d, Reached true d → ∀ buf, (d.decode buf).ret = -2 →
      let r := d.decode buf
      slice r.buf r.size (r.size + r.decoder.pendingBytes) = undecodedTail d buf ∧
        r.decoder.pendingBytes = (undecodedTail d buf).length := by
  refine ⟨fun pieces hsplit hwhole => ?_, fun d hd buf hret => pending_eq_undecodedTail hd hret⟩
  rw [decodePieces_eq (shows_fresh true) [] pieces hsplit,
    decodePieces_eq (shows_fresh true) [] [pieces.flatten] hwhole, List.flatten_cons,
    List.flatten_nil, List.append_nil]

/-- A chunk cut in its size line, its data and its line end, a request behind the body. -/
theorem chunked_split_invariant_abc :
    decodePieces (.fresh true) [] []
        [ascii "3\r", ascii "\nab", ascii "c\r", ascii "\n0\r\n\r\nGET"] =
      .complete (ascii "abc") (ascii "GET") ∧
    ((HTTPChunkedDecoder.fresh true).decode (ascii "3\r\nab")).decoder.pendingBytes = 0 := by
  refine ⟨?_, ?_⟩
  · have h := chunked_split_invariant.1
      [ascii "3\r", ascii "\nab", ascii "c\r", ascii "\n0\r\n\r\nGET"]
      (by decide) (by decide)
    rw [h]
    decide
  · have h := chunked_split_invariant.2 (.fresh true) .fresh (ascii "3\r\nab")
      (by decide)
    exact h.2.trans (by decide)

end MojoHttp
