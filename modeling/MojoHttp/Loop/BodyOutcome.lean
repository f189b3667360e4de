import MojoHttp.Loop.RequestBody

/-!
# What decides a request's body (`loop/request.mojo`)

The two bounds are asked after every read, on the path of a body that came with its head and on
the one of a body behind it. A run of reads over a request the framing accepts ends by the
bounds alone, unless the decoder's guard against a body that is mostly framing fires: it is
asked only of a body still incomplete, so at the read boundaries.

* **`BodyInBuffer`** — `body_start + bytes_read` is in the buffer, in every state of every run.
* **`body_outcome`** — the outcome of every run.
* **`padded_body_by_reads`** — a body within both bounds, answered by one cut and refused by another.
-/

namespace MojoHttp

open BytesConstant Resumable CrlfText LaneScan

/-! ## The body stays in the buffer -/

/-- The body read so far is in the buffer, behind its head. -/
structure BodyInBuffer (s : RequestSlot) : Prop where
  inBuffer : ∀ body, s.bodyState = some body →
    body.headerEndOffset ≤ body.headerEndOffset + body.bytesRead ∧
      body.headerEndOffset + body.bytesRead ≤ s.recvBuffer.length
  head : s.state = .readingHeaders → s.bodyState = none

theorem length_resizeBytes (l : Bytes) (n : Nat) : (resizeBytes l n).length = n := by
  unfold resizeBytes
  rw [List.length_append, List.length_take, List.length_replicate]
  omega

theorem BodyInBuffer.processRequest {s : RequestSlot} (hs : BodyInBuffer s) :
    BodyInBuffer (processRequest s) := by
  unfold MojoHttp.processRequest
  refine ⟨hs.inBuffer, fun h => ?_⟩
  cases h

theorem bodyInBuffer_decodeChunkedTail (c : RequestLimits) {s : RequestSlot} {body : BodyReadState}
    (hbody : s.bodyState = some body)
    (hle : body.headerEndOffset + body.bytesRead ≤ s.recvBuffer.length)
    (hstate : s.state = .readingBody) : BodyInBuffer (decodeChunkedTail c s body) := by
  unfold decodeChunkedTail
  dsimp only
  generalize s.chunkDecoder.decode _ = r
  split
  · -- refused: the counters are the last call's
    refine ⟨fun b hb => ?_, fun h => by cases h⟩
    dsimp only at hb ⊢
    rw [hbody] at hb
    injection hb with hb
    subst hb
    rw [List.length_append, List.length_take]
    omega
  · have hlen := length_resizeBytes
      (s.recvBuffer.take (body.headerEndOffset + body.bytesRead) ++ r.buf)
      (body.headerEndOffset + body.bytesRead + r.size + r.decoder.pendingBytes)
    split
    · refine ⟨fun b hb => ?_, fun h => by cases h⟩
      dsimp only at hb ⊢
      injection hb with hb
      subst hb
      rw [hlen]
      dsimp only
      omega
    · split
      · refine BodyInBuffer.processRequest ⟨fun b hb => ?_, fun h => ?_⟩
        · dsimp only at hb ⊢
          injection hb with hb
          subst hb
          rw [hlen]
          dsimp only
          omega
        · dsimp only at h
          rw [hstate] at h
          cases h
      · refine ⟨fun b hb => ?_, fun h => ?_⟩
        · dsimp only at hb ⊢
          injection hb with hb
          subst hb
          rw [hlen]
          dsimp only
          omega
        · dsimp only at h
          rw [hstate] at h
          cases h

/-- A framed head is in the buffer. -/
theorem frameRequestHead_headEnd_le {w : IndexWords} {limits : HeadLimits} {b : Bytes} {n : Nat}
    {head : Option ParsedRequestHeaders}
    (h : (frameRequestHead w limits b n head).1.outcome = .request) :
    0 < (frameRequestHead w limits b n head).1.headEnd ∧
      (frameRequestHead w limits b n head).1.headEnd ≤ b.length := by
  unfold frameRequestHead at h ⊢
  cases hf : findHeaderEnd b n with
  | none =>
    rw [hf] at h
    dsimp only at h
    split at h <;> cases h
  | some e =>
    rw [hf] at h
    dsimp only at h ⊢
    have he : 0 < e ∧ e ≤ b.length := by
      rw [findHeaderEnd_eq, Option.map_eq_some_iff] at hf
      obtain ⟨k, hk, rfl⟩ := hf
      have := emptyLineAt_lt (firstFrom_eq_some.mp hk).2.2.1
      omega
    have hend : (decideHead w limits (b.take e) e head).1.headEnd = e := by
      unfold decideHead at h ⊢
      split at h
      · cases h
      · rename_i hsize
        rw [if_neg hsize]
        split at h
        · cases h
        · cases h
        · rename_i parsed hparsed
          split at h
          · cases h
          · rename_i hconsumed
            split at h
            · cases h
            · rename_i huri
              dsimp only at h
              split at h
              · cases h
              · rename_i hbody
                simp only
                rw [if_neg hconsumed, if_neg huri, if_neg hbody]
                unfold HeadFraming.request
                split <;> rfl
    rw [hend]
    exact he

section Run

variable (w : IndexWords) (c : RequestLimits)

theorem bodyInBuffer_frameBuffered {s : RequestSlot} (hs : BodyInBuffer s)
    (hstate : s.state = .readingHeaders) : BodyInBuffer (frameBuffered w c s) := by
  have hnone := hs.head hstate
  have hempty : ∀ {t : RequestSlot}, t.bodyState = s.bodyState → BodyInBuffer t := by
    intro t ht
    rw [hnone] at ht
    refine ⟨fun b hb => ?_, fun _ => ht⟩
    rw [ht] at hb
    cases hb
  unfold frameBuffered
  dsimp only
  generalize hanswer :
    frameRequestHead w c.head (s.recvBuffer.drop s.headStart) s.lastParseLen s.parsedHeaders = answer
  split
  · split <;> exact hempty rfl
  · split <;> exact hempty rfl
  · rename_i hrequest
    rw [← hanswer] at hrequest
    obtain ⟨hpos, hle⟩ := frameRequestHead_headEnd_le hrequest
    rw [hanswer, List.length_drop] at hle
    rw [hanswer] at hpos
    split
    · split
      · refine bodyInBuffer_decodeChunkedTail c rfl ?_ rfl
        rename_i hchunked
        dsimp only
        rw [if_pos hchunked.1]
        omega
      · have hbody : ∀ {t : RequestSlot}, t.recvBuffer = s.recvBuffer → t.state = .readingBody →
            t.bodyState = some ⟨if decide (answer.1.body = .chunked) = true then c.maxRequestBodySize
                else answer.1.contentLength,
              if decide (answer.1.body = .chunked) = true then 0
                else s.recvBuffer.length - (s.headStart + answer.1.headEnd),
              s.headStart + answer.1.headEnd, decide (answer.1.body = .chunked)⟩ →
            BodyInBuffer t := by
          intro t hbuf htstate ht
          refine ⟨fun b hb => ?_, fun h => ?_⟩
          · rw [ht] at hb
            injection hb with hb
            subst hb
            rw [hbuf]
            dsimp only
            split <;> omega
          · rw [htstate] at h
            cases h
        split
        · apply BodyInBuffer.processRequest
          exact hbody rfl rfl rfl
        · exact hbody rfl rfl rfl
    · apply BodyInBuffer.processRequest
      exact hempty rfl

theorem bodyInBuffer_readBody {s : RequestSlot} (hs : BodyInBuffer s)
    (hstate : s.state = .readingBody) (bytes : Bytes) : BodyInBuffer (readBody c s bytes) := by
  unfold readBody
  cases hb : s.bodyState with
  | none => exact hs
  | some body =>
    obtain ⟨-, hle⟩ := hs.inBuffer body hb
    dsimp only
    have hgrown : ∀ body' : BodyReadState,
        body' = (if body.isChunked then body
          else { body with bytesRead := body.bytesRead + bytes.length }) →
        body'.headerEndOffset + body'.bytesRead ≤ (s.recvBuffer ++ bytes).length := by
      rintro body' rfl
      rw [List.length_append]
      split
      · omega
      · dsimp only
        omega
    generalize (if body.isChunked then body
      else { body with bytesRead := body.bytesRead + bytes.length }) = body' at hgrown ⊢
    have hle' := hgrown body' rfl
    have hreading : BodyInBuffer
        { s with recvBuffer := s.recvBuffer ++ bytes, bodyState := some body' } := by
      refine ⟨fun b hb => ?_, fun h => ?_⟩
      · injection hb with hb
        subst hb
        exact ⟨Nat.le_add_right _ _, hle'⟩
      · dsimp only at h
        rw [hstate] at h
        cases h
    split
    · split
      · exact bodyInBuffer_decodeChunkedTail c rfl hle' hstate
      · exact hreading
    · split
      · exact hreading.processRequest
      · exact hreading

theorem bodyInBuffer_onRead {s : RequestSlot} (hs : BodyInBuffer s) (bytes : Bytes) :
    BodyInBuffer (onRead w c s bytes) := by
  unfold onRead
  cases hstate : s.state with
  | readingHeaders =>
    have hnone := hs.head hstate
    refine bodyInBuffer_frameBuffered w c ⟨fun b hb => ?_, fun _ => hnone⟩ hstate
    have hb' : s.bodyState = some b := hb
    rw [hnone] at hb'
    cases hb'
  | readingBody => exact bodyInBuffer_readBody c hs hstate bytes
  | ended result => exact hs

theorem bodyInBuffer_readAll {s : RequestSlot} (hs : BodyInBuffer s) (reads : List Bytes) :
    BodyInBuffer (readAll w c s reads) := by
  induction reads generalizing s with
  | nil => exact hs
  | cons bytes reads ih => exact ih (bodyInBuffer_onRead w c hs bytes)

theorem bodyInBuffer_runRequest (front tail : Bytes) (reads : List Bytes) :
    BodyInBuffer (runRequest w c front tail reads) := by
  have hready : BodyInBuffer (.ready front tail) := ⟨fun b hb => (by cases hb), fun _ => rfl⟩
  unfold runRequest drainPipelined
  refine bodyInBuffer_readAll w c ?_ reads
  split
  · exact bodyInBuffer_frameBuffered w c hready rfl
  · exact hready

end Run

/-! ## The outcome -/

/-- How one request's run ends. -/
theorem runRequest_ends {w : IndexWords} {c : RequestLimits} {p : ParsedRequestHeaders}
    {head body decoded : Bytes} (hc : c.Fits) (htext : RequestText w c p head body decoded)
    {front tail behind : Bytes} {reads : List Bytes} (hne : [] ∉ reads)
    (htotal : tail ++ reads.flatten = head ++ body ++ behind) :
    Ends c p body decoded (GuardMet p head body tail reads) (runRequest w c front tail reads) :=
  readAll_ends hc htext (drainPipelined_reaches hc htext htotal) hne htotal

/-- **The outcome of a request's reads.** With limits whose sums fit an `Int`, and a request the
framing accepts, of any body, cut anyhow, the first of it behind an earlier request or not, any
bytes behind it: when the decoder's guard fires at no read boundary inside the body, the request
is answered with its decoded body exactly when that is within the cap and (chunked) the raw
stream is within twice it, and refused 413 otherwise. When the guard does fire at one, it is
refused, 400 when it is within the bounds. In every state of every run, of any bytes, the body
read so far is in the buffer. -/
theorem body_outcome :
    (∀ (w : IndexWords) (c : RequestLimits), c.Fits →
      ∀ (p : ParsedRequestHeaders) (head body decoded : Bytes), RequestText w c p head body decoded →
      ∀ (front tail behind : Bytes) (reads : List Bytes), [] ∉ reads →
        tail ++ reads.flatten = head ++ body ++ behind →
        (¬ GuardMet p head body tail reads →
          (WithinBounds c p body decoded →
            (runRequest w c front tail reads).state = .ended (.answered (some p) decoded)) ∧
          (¬ WithinBounds c p body decoded →
            (runRequest w c front tail reads).state = .ended .tooLarge)) ∧
        (GuardMet p head body tail reads →
          (runRequest w c front tail reads).state = .ended .badRequest ∨
            (¬ WithinBounds c p body decoded ∧
              (runRequest w c front tail reads).state = .ended .tooLarge))) ∧
    ∀ (w : IndexWords) (c : RequestLimits) (front tail : Bytes) (reads : List Bytes)
      (body : BodyReadState), (runRequest w c front tail reads).bodyState = some body →
        body.headerEndOffset ≤ body.headerEndOffset + body.bytesRead ∧
          body.headerEndOffset + body.bytesRead ≤ (runRequest w c front tail reads).recvBuffer.length := by
  refine ⟨fun w c hc p head body decoded htext front tail behind reads hne htotal => ?_,
    fun w c front tail reads body hbody =>
      (bodyInBuffer_runRequest w c front tail reads).inBuffer body hbody⟩
  have hends : Ends c p body decoded (GuardMet p head body tail reads)
      (runRequest w c front tail reads) := runRequest_ends hc htext hne htotal
  refine ⟨fun hunmet => ⟨fun hin => ?_, fun hover => ?_⟩, fun hmet => ?_⟩
  · cases hends with
    | fires _ hmet => exact absurd hmet hunmet
    | tooLarge _ hover => exact absurd hin hover
    | answered h _ _ => exact h
  · cases hends with
    | fires _ hmet => exact absurd hmet hunmet
    | tooLarge h _ => exact h
    | answered _ hin _ => exact absurd hin hover
  · cases hends with
    | fires h _ => exact Or.inl h
    | tooLarge h hover => exact Or.inr ⟨hover, h⟩
    | answered _ _ hunmet => exact absurd hmet hunmet

/-! ## A body both answered and refused -/

/-- The limits a server starts with. -/
def RequestLimits.default : RequestLimits := ⟨32 * 1024, 8192, 4 * 1024 * 1024, 2 * 1024 * 1024⟩

def chunkedHead : Bytes := ascii "POST / HTTP/1.1\r\nHost: a\r\nTransfer-Encoding: chunked\r\n\r\n"

/-- One chunk of one byte, its extension of `n` bytes. -/
def paddedBody (n : Nat) : Bytes :=
  ascii "1;" ++ List.replicate n 0x61 ++ ascii "\r\nx\r\n0\r\n\r\n"

/-- `k` reads that fill a buffer of `size` bytes, and one of what is left. -/
def readsOf (size : Nat) : (k : Nat) → Bytes → List Bytes
  | 0, l => [l]
  | k + 1, l => l.take size :: readsOf size k (l.drop size)

theorem flatten_readsOf (size k : Nat) (l : Bytes) : (readsOf size k l).flatten = l := by
  induction k generalizing l with
  | zero => simp [readsOf]
  | succ k ih => rw [readsOf, List.flatten_cons, ih, List.take_append_drop]

theorem length_readsOf (size k : Nat) (l : Bytes) : (readsOf size k l).length = k + 1 := by
  induction k generalizing l with
  | zero => rfl
  | succ k ih => rw [readsOf, List.length_cons, ih]

/-- Where the reads' boundaries are. -/
theorem flatten_take_readsOf {size k j : Nat} (hj : j ≤ k) (l : Bytes) :
    ((readsOf size k l).take j).flatten = l.take (size * j) := by
  induction j generalizing k l with
  | zero => simp
  | succ j ih =>
    cases k with
    | zero => omega
    | succ k =>
      rw [readsOf, List.take_succ_cons, List.flatten_cons, ih (by omega), Nat.mul_succ, Nat.add_comm,
        List.take_add]

theorem mem_readsOf {size k : Nat} {l r : Bytes} (hsize : 0 < size) (h1 : size * k < l.length)
    (h2 : l.length ≤ size * (k + 1)) (hr : r ∈ readsOf size k l) : r ≠ [] ∧ r.length ≤ size := by
  induction k generalizing l with
  | zero =>
    rw [readsOf, List.mem_singleton] at hr
    subst hr
    refine ⟨List.length_pos_iff.mp (by omega), by omega⟩
  | succ k ih =>
    rw [Nat.mul_succ] at h1 h2
    rw [readsOf, List.mem_cons] at hr
    rcases hr with rfl | hr
    · refine ⟨List.length_pos_iff.mp ?_, ?_⟩ <;> rw [List.length_take] <;> omega
    · refine ih ?_ ?_ hr <;> rw [List.length_drop] <;> omega

theorem length_paddedBody (n : Nat) : (paddedBody n).length = n + 12 := by
  unfold paddedBody
  rw [List.length_append, List.length_append, List.length_replicate,
    show (ascii "1;").length = 2 from rfl, show (ascii "\r\nx\r\n0\r\n\r\n").length = 10 from rfl]
  omega

theorem requestText_padded (n : Nat) {c : RequestLimits} (hheader : 56 ≤ c.maxTotalHeaderSize)
    (huri : 8192 ≤ c.maxRequestUriLength) : ∃ p, p.isChunkedBody = true ∧
      RequestText .packed c p chunkedHead (paddedBody n) (ascii "x") := by
  have hparse : ((parseRequestHeaders .packed chunkedHead).toOption.any fun p =>
      p.isChunkedBody && decide ((p.path.length : Int) ≤ 8192)) = true := by decide +kernel
  cases hp : parseRequestHeaders .packed chunkedHead with
  | error e =>
    rw [hp] at hparse
    cases hparse
  | ok p =>
    rw [hp] at hparse
    simp only [Except.toOption, Option.any_some, Bool.and_eq_true, decide_eq_true_eq] at hparse
    refine ⟨p, hparse.1, by decide +kernel, hp, hheader, hparse.2.trans huri, fun _ => ?_, fun h => ?_⟩
    · refine ⟨[(ascii "1;" ++ List.replicate n 0x61, ascii "x")], ascii "0", [], ?_, ?_, ?_, ?_, rfl⟩
      · intro chunk hchunk
        rw [List.mem_singleton] at hchunk
        subst hchunk
        refine ⟨⟨⟨ascii "1", [], SEMICOLON :: List.replicate n 0x61, rfl,
          ⟨by decide, by decide, rfl⟩, by simp, Or.inr ⟨_, rfl, ?_⟩⟩, ?_⟩, ?_⟩
        · intro b hb
          rw [List.eq_of_mem_replicate hb]
          decide
        · show (ascii "x").length ≤ maxChunkSize
          decide
        · show ascii "x" ≠ []
          decide
      · exact ⟨⟨ascii "0", [], [], rfl, ⟨by decide, by decide, rfl⟩, by simp, Or.inl rfl⟩, by decide⟩
      · simp
      · simp [paddedBody, chunkText, crlf, ascii]
    · rw [hparse.1] at h
      cases h

/-- The bytes of an extension decode to nothing. -/
theorem runBody_padding (n : Nat) :
    runBody (ascii "1;" ++ List.replicate n 0x61) = .waiting (.ext 1) [] [] := by
  have hpad : Phase.next true (.ext 1) 0x61 = .go (.ext 1) [] := rfl
  have hext : ∀ n, (chunked true).run (.ext 1) (List.replicate n 0x61) = .waiting (.ext 1) [] [] := by
    intro n
    induction n with
    | zero => exact Machine.run_ofNext_nil _
    | succ n ih =>
      rw [chunked] at ih ⊢
      rw [List.replicate_succ, Machine.run_ofNext_go hpad, ih]
      rfl
  have hdigit : Phase.next true (.size false 0) 0x31 = .go (.size true 1) [] := rfl
  have hsemi : Phase.next true (.size true 1) 0x3B = .go (.ext 1) [] := rfl
  have h := hext n
  unfold runBody
  rw [chunked] at h ⊢
  show (Machine.ofNext (Phase.next true)).run (.size false 0) (0x31 :: 0x3B :: List.replicate n 0x61) = _
  rw [Machine.run_ofNext_go hdigit, Machine.run_ofNext_go hsemi, h]
  rfl

/-- Where the guard fires in front of a waiting body: by its counters. -/
theorem guardFires_of_waiting {part out : Bytes} {q : Phase}
    (hrun : runBody part = .waiting q [] out) :
    (HTTPChunkedDecoder.fresh true).guardFires part = true ↔
      100 * 1024 + out.length ≤ part.length ∧ out.length < part.length / 4 := by
  have htakes : TakesAll [] [] part out _ := decoderAt_fresh.takesAll hrun
  have hread := htakes.decoder.totalRead
  have hover := htakes.decoder.totalOverhead
  rw [List.nil_append] at hread hover
  unfold HTTPChunkedDecoder.guardFires HTTPChunkedDecoder.overheadIsExcessive
  rw [htakes.ret, hread, hover]
  simp only [Bool.and_eq_true, decide_eq_true_eq, true_and]
  omega

theorem length_of_guardFires {part : Bytes}
    (hfires : (HTTPChunkedDecoder.fresh true).guardFires part = true) : 100 * 1024 ≤ part.length := by
  unfold HTTPChunkedDecoder.guardFires HTTPChunkedDecoder.overheadIsExcessive at hfires
  simp only [Bool.and_eq_true, decide_eq_true_eq] at hfires
  obtain ⟨q, tail, out, -, hw⟩ := waits_of_ret (decodeCore_spec (shows_fresh true) part) hfires.1
  have hover := hw.totalOverhead
  have hfresh : (HTTPChunkedDecoder.fresh true).totalOverhead = 0 := rfl
  omega

/-- The run of a connection's first request, nothing behind it. -/
theorem runRequest_first {w : IndexWords} {c : RequestLimits} {p : ParsedRequestHeaders}
    {head body decoded : Bytes} (hc : c.Fits) (htext : RequestText w c p head body decoded)
    {reads : List Bytes} (hne : [] ∉ reads) (hflat : reads.flatten = head ++ body) :
    Ends c p body decoded (GuardMet p head body [] reads) (runRequest w c [] [] reads) :=
  runRequest_ends hc htext hne (by rw [List.nil_append, List.append_nil]; exact hflat)

/-- The head alone, then reads that fill their buffer: one ends 100 KB into the body. -/
def headThenBody : List Bytes := chunkedHead :: readsOf 4096 25 (paddedBody 102398)

/-- Ten bytes of the body with the head: the read that passes 100 KB ends the body. -/
def headWithBody : List Bytes :=
  (chunkedHead ++ (paddedBody 102398).take 10) :: readsOf 4096 24 ((paddedBody 102398).drop 10)

theorem flatten_headThenBody : headThenBody.flatten = chunkedHead ++ paddedBody 102398 := by
  rw [headThenBody, List.flatten_cons, flatten_readsOf]

theorem flatten_headWithBody : headWithBody.flatten = chunkedHead ++ paddedBody 102398 := by
  rw [headWithBody, List.flatten_cons, flatten_readsOf, List.append_assoc, List.take_append_drop]

theorem length_chunkedHead : chunkedHead.length = 56 := by decide

theorem mem_headThenBody {r : Bytes} (hr : r ∈ headThenBody) : r ≠ [] ∧ r.length ≤ 4096 := by
  rw [headThenBody, List.mem_cons] at hr
  rcases hr with rfl | hr
  · exact ⟨by decide, by rw [length_chunkedHead]; decide⟩
  · refine mem_readsOf (by decide) ?_ ?_ hr <;> rw [length_paddedBody] <;> omega

theorem mem_headWithBody {r : Bytes} (hr : r ∈ headWithBody) : r ≠ [] ∧ r.length ≤ 4096 := by
  rw [headWithBody, List.mem_cons] at hr
  rcases hr with rfl | hr
  · have hlen : (chunkedHead ++ (paddedBody 102398).take 10).length = 66 := by
      rw [List.length_append, length_chunkedHead, List.length_take, length_paddedBody]
      omega
    exact ⟨List.length_pos_iff.mp (by omega), by omega⟩
  · refine mem_readsOf (by decide) ?_ ?_ hr <;> rw [List.length_drop, length_paddedBody] <;> omega

theorem guardMet_headThenBody {p : ParsedRequestHeaders} (hp : p.isChunkedBody = true) :
    GuardMet p chunkedHead (paddedBody 102398) [] headThenBody := by
  have htaken : (headThenBody.take 26).flatten
      = chunkedHead ++ (ascii "1;" ++ List.replicate 102398 0x61) := by
    have hpart : (paddedBody 102398).take (4096 * 25) = ascii "1;" ++ List.replicate 102398 0x61 := by
      unfold paddedBody
      refine List.take_left' ?_
      rw [List.length_append, List.length_replicate]
      rfl
    rw [headThenBody, List.take_succ_cons, List.flatten_cons, flatten_take_readsOf le_rfl, hpart]
  have hlen : (ascii "1;" ++ List.replicate 102398 0x61 : Bytes).length = 102400 := by
    rw [List.length_append, List.length_replicate]
    rfl
  refine ⟨26, by rw [headThenBody, List.length_cons, length_readsOf]; omega, hp, ?_⟩
  rw [List.nil_append, htaken, List.length_append, hlen, length_paddedBody, List.drop_left]
  refine ⟨by omega, by omega, (guardFires_of_waiting (runBody_padding 102398)).mpr ?_⟩
  rw [hlen]
  exact ⟨by decide, by decide⟩

theorem not_guardMet_headWithBody {p : ParsedRequestHeaders} :
    ¬ GuardMet p chunkedHead (paddedBody 102398) [] headWithBody := by
  rintro ⟨k, hk, -, hpast, hinside, hfires⟩
  have hguard := length_of_guardFires hfires
  rw [List.length_drop] at hguard
  rw [List.nil_append] at hpast hinside hguard
  rw [length_paddedBody] at hinside
  have hcount : headWithBody.length = 26 := by
    rw [headWithBody, List.length_cons, length_readsOf]
  cases k with
  | zero => exact absurd hpast (by simp)
  | succ j =>
    -- up to the last read the body is short of the guard, with it the body is whole
    rw [headWithBody, List.take_succ_cons, List.flatten_cons] at hinside hguard
    rcases Nat.lt_or_ge 24 j with hlast | hbefore
    · have hall : (readsOf 4096 24 ((paddedBody 102398).drop 10)).take j
          = readsOf 4096 24 ((paddedBody 102398).drop 10) :=
        List.take_of_length_le (by rw [length_readsOf]; omega)
      rw [hall, flatten_readsOf, List.append_assoc, List.take_append_drop, List.length_append,
        length_paddedBody] at hinside
      omega
    · rw [flatten_take_readsOf hbefore] at hguard
      simp only [List.length_append, List.length_take, List.length_drop, length_paddedBody] at hguard
      omega

/-- A cap whose double is no `Int`. -/
def overflowingLimits : RequestLimits := ⟨32 * 1024, 8192, 2 ^ 62, 2 * 1024 * 1024⟩

def ReadState.isTooLarge : ReadState → Bool
  | .ended .tooLarge => true
  | _ => false

theorem ReadState.eq_of_isTooLarge : ∀ {s : ReadState}, s.isTooLarge = true → s = .ended .tooLarge
  | .ended .tooLarge, _ => rfl

/-- **A body within both bounds, answered by one cut of its bytes and refused by another**; and
with a cap whose double is no `Int`, a short body refused. -/
theorem padded_body_by_reads :
    (∃ p, RequestText .packed .default p chunkedHead (paddedBody 102398) (ascii "x") ∧
      WithinBounds .default p (paddedBody 102398) (ascii "x") ∧
      (∀ r ∈ headThenBody, r ≠ [] ∧ r.length ≤ 4096) ∧
      (∀ r ∈ headWithBody, r ≠ [] ∧ r.length ≤ 4096) ∧
      headThenBody.flatten = chunkedHead ++ paddedBody 102398 ∧
      headWithBody.flatten = chunkedHead ++ paddedBody 102398 ∧
      (runRequest .packed .default [] [] headThenBody).state = .ended .badRequest ∧
      (runRequest .packed .default [] [] headWithBody).state
        = .ended (.answered (some p) (ascii "x"))) ∧
    ∃ p, RequestText .packed overflowingLimits p chunkedHead (paddedBody 0) (ascii "x") ∧
      WithinBounds overflowingLimits p (paddedBody 0) (ascii "x") ∧
      (runRequest .packed overflowingLimits [] [] [chunkedHead ++ paddedBody 0]).state
        = .ended .tooLarge := by
  refine ⟨?_, ?_⟩
  swap
  · obtain ⟨p, -, htext⟩ := requestText_padded 0 (c := overflowingLimits) (by decide) (by decide)
    exact ⟨p, htext, ⟨by decide, fun _ => by decide⟩,
      ReadState.eq_of_isTooLarge (by decide +kernel)⟩
  obtain ⟨p, hp, htext⟩ := requestText_padded 102398 (c := .default) (by decide) (by decide)
  have hfits : RequestLimits.default.Fits := ⟨by decide, by decide, by decide⟩
  have hin : WithinBounds .default p (paddedBody 102398) (ascii "x") := by
    refine ⟨by decide, fun _ => ?_⟩
    rw [length_paddedBody]
    decide
  refine ⟨p, htext, hin, fun r => mem_headThenBody, fun r => mem_headWithBody,
    flatten_headThenBody, flatten_headWithBody, ?_, ?_⟩
  · have hends := runRequest_first hfits htext
      (fun h => (mem_headThenBody h).1 rfl) flatten_headThenBody
    cases hends with
    | fires h _ => exact h
    | tooLarge _ hover => exact absurd hin hover
    | answered _ _ hunmet => exact absurd (guardMet_headThenBody hp) hunmet
  · have hends := runRequest_first hfits htext
      (fun h => (mem_headWithBody h).1 rfl) flatten_headWithBody
    cases hends with
    | fires _ hmet => exact absurd hmet not_guardMet_headWithBody
    | tooLarge _ hover => exact absurd hin hover
    | answered h _ _ => exact h

/-- A chunk cut in its size line and its data, a request behind the body. -/
theorem body_outcome_abc :
    ∃ p, (runRequest .packed .default (ascii "GET / HTTP/1.1\r\nHost: a\r\n\r\n") (chunkedHead.take 9)
      [chunkedHead.drop 9 ++ ascii "1", ascii ";\r", ascii "\nx\r\n0", ascii "\r\n\r\nGET"]).state
        = .ended (.answered (some p) (ascii "x")) := by
  obtain ⟨p, -, htext⟩ := requestText_padded 0 (c := .default) (by decide) (by decide)
  refine ⟨p, ((body_outcome.1 .packed .default ⟨by decide, by decide, by decide⟩ p chunkedHead
    (paddedBody 0) (ascii "x") htext _ _ (ascii "GET") _ (by decide +kernel)
    (by decide +kernel)).1 ?_).1 ⟨by decide, fun _ => by decide⟩⟩
  rintro ⟨k, -, -, -, hinside, hfires⟩
  have hguard := length_of_guardFires hfires
  rw [List.length_drop] at hguard
  rw [length_paddedBody] at hinside
  omega

end MojoHttp
