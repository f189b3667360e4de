import MojoHttp.Header.HeadEnd
import MojoHttp.Header.Request

/-!
# The framing decision for a request head (`framing.mojo`)

`frame_request_head` asks both framers of a head, `find_header_end` and the parser, and
answers INCOMPLETE, REFUSED or REQUEST.

* **`parse_ends_at_headEnd`** — on the bytes the first CR LF CR LF cuts off, the parser
  stops where they end: the two framers name one byte.
* **`frameRequestHead_resume`** — a call that resumes behind an INCOMPLETE answer is the call
  from the first byte.
* **`framing_independent_of_reads`** — however the bytes arrive, the first answer that is not
  INCOMPLETE is the one of the whole buffer, or an early refusal of a buffer that is refused.
* **`framers_agree`** — REFUSED_FRAMERS_DISAGREE is never answered.
-/

namespace MojoHttp

open BytesConstant LaneScan CrlfText

/-! ## The answer -/

inductive FrameOutcome where
  | incomplete
  | refused
  | request
  deriving Repr, DecidableEq

inductive BodyFraming where
  | none
  | length
  | chunked
  deriving Repr, DecidableEq

/-- `REFUSED_*`. -/
inductive RefusedRule where
  | none
  | bareLf
  | headTooLarge
  | malformed
  | notImplemented
  | framersDisagree
  | uriTooLong
  | bodyTooLarge
  deriving Repr, DecidableEq

structure HeadFraming where
  outcome : FrameOutcome
  rule : RefusedRule
  headEnd : Nat
  body : BodyFraming
  contentLength : Int
  requestEnd : Int
  deriving Repr, DecidableEq

namespace HeadFraming

def incomplete : HeadFraming := ⟨.incomplete, .none, 0, .none, 0, 0⟩

def refused (rule : RefusedRule) : HeadFraming := ⟨.refused, rule, 0, .none, 0, 0⟩

def request (headEnd : Nat) (isChunked : Bool) (contentLength : Int) : HeadFraming :=
  if isChunked then ⟨.request, .none, headEnd, .chunked, contentLength, 0⟩
  else ⟨.request, .none, headEnd, if contentLength > 0 then .length else .none, contentLength,
    headEnd + contentLength⟩

@[simp] theorem request_outcome (headEnd : Nat) (isChunked : Bool) (contentLength : Int) :
    (request headEnd isChunked contentLength).outcome = .request := by
  unfold request
  split <;> rfl

@[simp] theorem request_rule (headEnd : Nat) (isChunked : Bool) (contentLength : Int) :
    (request headEnd isChunked contentLength).rule = .none := by
  unfold request
  split <;> rfl

end HeadFraming

/-- The three limits of the decision. -/
structure HeadLimits where
  maxHeaderSize : Int
  maxUriLength : Int
  maxBodySize : Int
  deriving Repr, DecidableEq

/-- The decision once the terminator ends the head at `headEnd`; `bytes` is `buffer[:headEnd]`
and `head` the caller's slot. -/
def decideHead (w : IndexWords) (limits : HeadLimits) (bytes : Bytes) (headEnd : Nat)
    (head : Option ParsedRequestHeaders) : HeadFraming × Option ParsedRequestHeaders :=
  if (headEnd : Int) > limits.maxHeaderSize then (.refused .headTooLarge, head)
  else
    match parseRequestHeaders w bytes with
    | .error .unsupported => (.refused .notImplemented, head)
    | .error _ => (.refused .malformed, head)
    | .ok parsed =>
      if parsed.bytesConsumed ≠ headEnd then (.refused .framersDisagree, head)
      else if (parsed.path.length : Int) > limits.maxUriLength then (.refused .uriTooLong, head)
      else
        let contentLength := parsed.contentLength
        let isChunked := parsed.isChunkedBody
        if !isChunked ∧ contentLength > limits.maxBodySize then (.refused .bodyTooLarge, head)
        else (.request headEnd isChunked contentLength, some parsed)

/-- `frame_request_head`: the answer, and the slot a framed request's parsed head is moved
into. -/
def frameRequestHead (w : IndexWords) (limits : HeadLimits) (buffer : Bytes) (scanned : Nat)
    (head : Option ParsedRequestHeaders) : HeadFraming × Option ParsedRequestHeaders :=
  match findHeaderEnd buffer scanned with
  | none =>
    if holdsBareLf buffer scanned then (.refused .bareLf, head) else (.incomplete, head)
  | some headEnd => decideHead w limits (buffer.take headEnd) headEnd head

/-- The calls of a head that arrives in pieces: on the first `n` bytes for each `n` in turn,
`scanned` the length of the last INCOMPLETE answer, up to the first answer that is another. -/
def firstAnswer (w : IndexWords) (limits : HeadLimits) (b : Bytes) :
    List Nat → (scanned : Nat) → Option ParsedRequestHeaders →
    HeadFraming × Option ParsedRequestHeaders
  | [], _, head => (.incomplete, head)
  | n :: ns, scanned, head =>
    let answer := frameRequestHead w limits (b.take n) scanned head
    if answer.1.outcome = .incomplete then firstAnswer w limits b ns n answer.2 else answer

/-! ## The two framers -/

/-- **The parser stops where the terminator search does.** The text it read ends in a
CR LF CR LF, and the bytes it was given hold none before their last four. -/
theorem parse_ends_at_headEnd {w : IndexWords} {b : Bytes} {h : Nat} {p : ParsedRequestHeaders}
    (hh : headEnd b = some h) (hp : parseRequestHeaders w (b.take h) = .ok p) :
    p.bytesConsumed = h ∧ (∃ t, b.take h = t ++ (crlf ++ crlf)) ∧ NoBareLf (b.take h) := by
  obtain ⟨head, hhead, hconsumed⟩ := parseRequestHeaders_head hp
  obtain ⟨⟨text, heats, hlf⟩, -, -, -, -⟩ := httpParseRequestHeaders_ok hhead
  obtain ⟨k, rfl, -, hmin⟩ := headEnd_eq_some.mp (headEnd_take hh (Nat.le_refl h))
  have hlen : (b.take (k + 4)).length = k + 4 := by
    rw [List.length_take]
    have := headEnd_le hh
    omega
  obtain ⟨-, hrest, hpos⟩ := heats
  simp only [ByteReader.rest, List.drop_zero, Nat.zero_add, List.length_append] at hrest hpos
  have hcrlf : crlf.length = 2 := rfl
  have hsplit : (b.take (k + 4)).length
      = text.length + 4 + ((b.take (k + 4)).drop head.consumed).length := by
    have := congrArg List.length hrest
    simp only [List.length_append] at this
    omega
  -- the terminator the parser stopped at is not before the first one
  have hat : k ≤ text.length := by
    refine Nat.le_of_not_lt fun hlt => ?_
    have hempty := emptyLineAt_of_append text ((b.take (k + 4)).drop head.consumed)
    rw [← hrest, hmin _ hlt] at hempty
    cases hempty
  have hdone : (b.take (k + 4)).drop head.consumed = [] := List.eq_nil_of_length_eq_zero (by omega)
  rw [hdone, List.append_nil] at hrest
  refine ⟨by omega, ⟨text, hrest⟩, ?_⟩
  rw [hrest]
  exact hlf.append (noBareLf_crlf.append noBareLf_crlf)

theorem decideHead_ne_incomplete (w : IndexWords) (limits : HeadLimits) (bytes : Bytes)
    (h : Nat) (head : Option ParsedRequestHeaders) :
    (decideHead w limits bytes h head).1.outcome ≠ .incomplete := by
  unfold decideHead
  split
  · simp [HeadFraming.refused]
  · split
    · simp [HeadFraming.refused]
    · simp [HeadFraming.refused]
    · split
      · simp [HeadFraming.refused]
      · split
        · simp [HeadFraming.refused]
        · dsimp only
          split
          · simp [HeadFraming.refused]
          · simp

/-- A head with a bare LF is refused, whatever its end. -/
theorem decideHead_bareLf {w : IndexWords} {limits : HeadLimits} {b : Bytes} {h : Nat}
    (hh : headEnd b = some h) (hlf : ¬ NoBareLf (b.take h)) (head : Option ParsedRequestHeaders) :
    (decideHead w limits (b.take h) h head).1.outcome = .refused := by
  unfold decideHead
  split
  · rfl
  · split
    · rfl
    · rfl
    · rename_i p hp
      exact absurd (parse_ends_at_headEnd hh hp).2.2 hlf

theorem decideHead_rule {w : IndexWords} {limits : HeadLimits} {b : Bytes} {h : Nat}
    (hh : headEnd b = some h) (head : Option ParsedRequestHeaders) :
    (decideHead w limits (b.take h) h head).1.rule ≠ .framersDisagree := by
  unfold decideHead
  split
  · simp [HeadFraming.refused]
  · split
    · simp [HeadFraming.refused]
    · simp [HeadFraming.refused]
    · rename_i p hp
      rw [if_neg (not_not.mpr (parse_ends_at_headEnd hh hp).1)]
      split
      · simp [HeadFraming.refused]
      · dsimp only
        split
        · simp [HeadFraming.refused]
        · simp

/-! ## One call -/

section Calls

variable (w : IndexWords) (limits : HeadLimits)

/-- Nothing ends the head yet, and nothing refuses it. -/
structure Unfinished (b : Bytes) : Prop where
  noEnd : headEnd b = none
  noBareLf : NoBareLf b

/-- **A resumed call is the call from the first byte.** -/
theorem frameRequestHead_resume {b : Bytes} {n : Nat} (hn : Unfinished (b.take n))
    (head : Option ParsedRequestHeaders) :
    frameRequestHead w limits b n head = frameRequestHead w limits b 0 head := by
  unfold frameRequestHead
  rw [findHeaderEnd_resume hn.noEnd, findHeaderEnd_zero, holdsBareLf_resume hn.noBareLf]

theorem frameRequestHead_of_headEnd {b : Bytes} {h : Nat} (hh : headEnd b = some h)
    (head : Option ParsedRequestHeaders) :
    frameRequestHead w limits b 0 head = decideHead w limits (b.take h) h head := by
  unfold frameRequestHead
  rw [findHeaderEnd_zero, hh]

theorem frameRequestHead_of_bareLf {b : Bytes} (hh : headEnd b = none) (hlf : ¬ NoBareLf b)
    (head : Option ParsedRequestHeaders) :
    frameRequestHead w limits b 0 head = (.refused .bareLf, head) := by
  unfold frameRequestHead
  rw [findHeaderEnd_zero, hh]
  dsimp only
  rw [if_pos]
  rw [← holdsBareLf_zero_eq_false] at hlf
  simpa using hlf

/-- With no end and no bare LF, every call is INCOMPLETE, wherever it resumes. -/
theorem frameRequestHead_of_unfinished {b : Bytes} (hb : Unfinished b) (scanned : Nat)
    (head : Option ParsedRequestHeaders) :
    frameRequestHead w limits b scanned head = (.incomplete, head) := by
  have hfind : findHeaderEnd b scanned = none := by
    rw [findHeaderEnd_eq, Option.map_eq_none_iff, firstFrom_eq_none]
    exact fun j _ _ => headEnd_eq_none.mp hb.noEnd j
  have hbare : holdsBareLf b scanned = false := by
    have h0 := holdsBareLf_zero_eq_false.mpr hb.noBareLf
    rw [Bool.eq_false_iff, ne_eq, holdsBareLf_iff] at h0 ⊢
    exact fun ⟨i, _, hi⟩ => h0 ⟨i, Nat.zero_le _, hi⟩
  unfold frameRequestHead
  rw [hfind]
  dsimp only
  rw [hbare]
  rfl

theorem unfinished_of_incomplete {b : Bytes} {head : Option ParsedRequestHeaders}
    (h : (frameRequestHead w limits b 0 head).1.outcome = .incomplete) : Unfinished b := by
  cases hh : headEnd b with
  | some e =>
    rw [frameRequestHead_of_headEnd w limits hh] at h
    exact absurd h (decideHead_ne_incomplete _ _ _ _ _)
  | none =>
    by_cases hlf : NoBareLf b
    · exact ⟨hh, hlf⟩
    · rw [frameRequestHead_of_bareLf w limits hh hlf] at h
      cases h

theorem Unfinished.take {b : Bytes} (hb : Unfinished b) (n : Nat) : Unfinished (b.take n) := by
  refine ⟨?_, hb.noBareLf.take n⟩
  rw [headEnd_eq_none]
  intro k
  cases hk : emptyLineAt (b.take n) k with
  | false => rfl
  | true =>
    have hlt := emptyLineAt_lt hk
    rw [List.length_take] at hlt
    rw [emptyLineAt_take (by omega), headEnd_eq_none.mp hb.noEnd k] at hk
    cases hk

/-- A call on a prefix: INCOMPLETE, the whole buffer's answer, or the early refusal. -/
theorem frameRequestHead_take (b : Bytes) (n : Nat) (head : Option ParsedRequestHeaders) :
    Unfinished (b.take n) ∨
      frameRequestHead w limits (b.take n) 0 head = frameRequestHead w limits b 0 head ∨
      ((frameRequestHead w limits b 0 head).1.outcome = .refused ∧
        frameRequestHead w limits (b.take n) 0 head = (.refused .bareLf, head)) := by
  have happ := List.take_append_drop n b
  cases hn : headEnd (b.take n) with
  | some h =>
    -- the prefix has its end: so has the buffer, and the same bytes before it
    refine Or.inr (Or.inl ?_)
    have hb : headEnd b = some h := by
      rw [← happ]
      exact headEnd_append hn _
    have hle := headEnd_le hn
    rw [List.length_take] at hle
    rw [frameRequestHead_of_headEnd w limits hn, frameRequestHead_of_headEnd w limits hb,
      List.take_take, Nat.min_eq_left (by omega)]
  | none =>
    by_cases hlf : NoBareLf (b.take n)
    · exact Or.inl ⟨hn, hlf⟩
    · rw [frameRequestHead_of_bareLf w limits hn hlf]
      refine Or.inr (Or.inr ⟨?_, rfl⟩)
      cases hb : headEnd b with
      | none =>
        have hlf' : ¬ NoBareLf b := fun h => hlf (h.take n)
        rw [frameRequestHead_of_bareLf w limits hb hlf']
        rfl
      | some h =>
        -- the end lies behind the prefix, so the bare LF is inside the head
        have hgt : n < h := by
          refine Nat.lt_of_not_le fun hle => ?_
          rw [headEnd_take hb hle] at hn
          cases hn
        rw [frameRequestHead_of_headEnd w limits hb]
        refine decideHead_bareLf hb (fun hno => hlf ?_) head
        have htake := hno.take n
        rwa [List.take_take, Nat.min_eq_left (by omega)] at htake

/-- A framed request is unchanged by what arrives behind it. -/
theorem frameRequestHead_append {b : Bytes} {scanned : Nat} {head : Option ParsedRequestHeaders}
    (h : (frameRequestHead w limits b scanned head).1.outcome = .request) (more : Bytes) :
    frameRequestHead w limits (b ++ more) scanned head
      = frameRequestHead w limits b scanned head := by
  cases hf : findHeaderEnd b scanned with
  | none =>
    unfold frameRequestHead at h
    rw [hf] at h
    dsimp only at h
    split at h <;> cases h
  | some e =>
    have hmore : findHeaderEnd (b ++ more) scanned = some e := by
      rw [findHeaderEnd_eq, Option.map_eq_some_iff] at hf ⊢
      obtain ⟨k, hk, rfl⟩ := hf
      obtain ⟨h1, -, h3, hmin⟩ := firstFrom_eq_some.mp hk
      have hlt := emptyLineAt_lt h3
      refine ⟨k, firstFrom_eq_some.mpr ⟨h1, ?_, ?_, fun j hj1 hj2 => ?_⟩, rfl⟩
      · rw [List.length_append]
        omega
      · rw [emptyLineAt_append_left hlt]
        exact h3
      · rw [emptyLineAt_append_left (by omega)]
        exact hmin j hj1 hj2
    have hle : e ≤ b.length := by
      rw [findHeaderEnd_eq, Option.map_eq_some_iff] at hf
      obtain ⟨k, hk, rfl⟩ := hf
      have := emptyLineAt_lt (firstFrom_eq_some.mp hk).2.2.1
      omega
    unfold frameRequestHead
    rw [hf, hmore]
    dsimp only
    rw [List.take_append_of_le_length hle]

/-! ## A run of calls -/

/-- What a run of calls ends in, resumed behind a prefix that is unfinished. -/
theorem firstAnswer_spec {b : Bytes} {ns : List Nat} {scanned : Nat}
    (hinc : (scanned :: ns).Pairwise (· < ·)) (hs : Unfinished (b.take scanned))
    (head : Option ParsedRequestHeaders) :
    (∃ n ∈ ns, ¬ Unfinished (b.take n) ∧
        firstAnswer w limits b ns scanned head = frameRequestHead w limits (b.take n) 0 head) ∨
      ((∀ n ∈ ns, Unfinished (b.take n)) ∧
        firstAnswer w limits b ns scanned head = (.incomplete, head)) := by
  induction ns generalizing scanned with
  | nil => exact Or.inr ⟨fun n hn => absurd hn List.not_mem_nil, rfl⟩
  | cons n ns ih =>
    obtain ⟨hlt, hrest⟩ := List.pairwise_cons.mp hinc
    have hsn : scanned < n := hlt n List.mem_cons_self
    have hcall : frameRequestHead w limits (b.take n) scanned head
        = frameRequestHead w limits (b.take n) 0 head := by
      apply frameRequestHead_resume
      rw [List.take_take, Nat.min_eq_left (by omega)]
      exact hs
    by_cases hu : Unfinished (b.take n)
    · have hmore : firstAnswer w limits b (n :: ns) scanned head
          = firstAnswer w limits b ns n head := by
        rw [firstAnswer, hcall, frameRequestHead_of_unfinished w limits hu 0 head]
        rfl
      rw [hmore]
      rcases ih hrest hu with ⟨m, hm, hnot, heq⟩ | ⟨hall, heq⟩
      · exact Or.inl ⟨m, List.mem_cons_of_mem _ hm, hnot, heq⟩
      · refine Or.inr ⟨fun m hm => ?_, heq⟩
        rcases List.mem_cons.mp hm with rfl | hm
        · exact hu
        · exact hall m hm
    · refine Or.inl ⟨n, List.mem_cons_self, hu, ?_⟩
      rw [firstAnswer, hcall]
      exact if_neg fun h => hu (unfinished_of_incomplete w limits h)

theorem unfinished_nil : Unfinished [] := ⟨rfl, noBareLf_nil⟩

/-- The run from nothing scanned. A first length of 0 asks of no bytes. -/
theorem firstAnswer_zero {b : Bytes} {ns : List Nat} (hinc : ns.Pairwise (· < ·))
    (head : Option ParsedRequestHeaders) :
    (∃ n ∈ ns, ¬ Unfinished (b.take n) ∧
        firstAnswer w limits b ns 0 head = frameRequestHead w limits (b.take n) 0 head) ∨
      ((∀ n ∈ ns, Unfinished (b.take n)) ∧
        firstAnswer w limits b ns 0 head = (.incomplete, head)) := by
  have h0 : Unfinished (b.take 0) := by
    rw [List.take_zero]
    exact unfinished_nil
  cases ns with
  | nil => exact Or.inr ⟨fun n hn => absurd hn List.not_mem_nil, rfl⟩
  | cons n ns =>
    rcases Nat.eq_zero_or_pos n with rfl | hpos
    · have hcall := frameRequestHead_of_unfinished w limits h0 0 head
      have hstep : firstAnswer w limits b (0 :: ns) 0 head = firstAnswer w limits b ns 0 head := by
        rw [firstAnswer, hcall]
        rfl
      rw [hstep]
      rcases firstAnswer_spec w limits hinc h0 head with ⟨m, hm, hnot, heq⟩ | ⟨hall, heq⟩
      · exact Or.inl ⟨m, List.mem_cons_of_mem _ hm, hnot, heq⟩
      · refine Or.inr ⟨fun m hm => ?_, heq⟩
        rcases List.mem_cons.mp hm with rfl | hm
        · exact h0
        · exact hall m hm
    · refine firstAnswer_spec w limits (List.pairwise_cons.mpr ⟨fun m hm => ?_, hinc⟩) h0 head
      rcases List.mem_cons.mp hm with rfl | hm
      · exact hpos
      · have := List.rel_of_pairwise_cons hinc hm
        omega

end Calls

/-- **Head framing is independent of how the bytes arrive.** The first answer of a run of calls
that is not INCOMPLETE is the one call's on the whole buffer, slot included, unless that refuses
the buffer and the run refused it earlier for a bare LF; a buffer that is INCOMPLETE has only
INCOMPLETE prefixes, wherever a call on one resumes; and a prefix once framed as a request stays
framed so whatever is appended. -/
theorem framing_independent_of_reads (w : IndexWords) (limits : HeadLimits) (b : Bytes)
    (ns : List Nat) (hinc : ns.Pairwise (· < ·)) (hlast : ns.getLast? = some b.length)
    (head : Option ParsedRequestHeaders) :
    let whole := frameRequestHead w limits b 0 head
    let first := firstAnswer w limits b ns 0 head
    (first = whole ∨ (whole.1.outcome = .refused ∧ first = (.refused .bareLf, head))) ∧
      (whole.1.outcome = .incomplete → ∀ n scanned,
        frameRequestHead w limits (b.take n) scanned head = (.incomplete, head)) ∧
      (∀ n scanned more, (frameRequestHead w limits (b.take n) scanned head).1.outcome = .request →
        frameRequestHead w limits (b.take n ++ more) scanned head
          = frameRequestHead w limits (b.take n) scanned head) ∧
      (first.1.outcome = .request → ∀ more, frameRequestHead w limits (b ++ more) 0 head = first) := by
  intro whole first
  have hfirst : first = whole ∨ (whole.1.outcome = .refused ∧ first = (.refused .bareLf, head)) := by
    rcases firstAnswer_zero w limits (b := b) hinc head with ⟨n, -, hnot, heq⟩ | ⟨hall, heq⟩
    · rcases frameRequestHead_take w limits b n head with hu | hsame | ⟨href, hbare⟩
      · exact absurd hu hnot
      · exact Or.inl (heq.trans hsame)
      · exact Or.inr ⟨href, heq.trans hbare⟩
    · -- every prefix is INCOMPLETE, and the last of them is the buffer
      have hb := hall b.length (List.mem_of_getLast? hlast)
      rw [List.take_length] at hb
      exact Or.inl (heq.trans (frameRequestHead_of_unfinished w limits hb 0 head).symm)
  refine ⟨hfirst, fun hwhole n scanned => ?_, fun n scanned more hreq => ?_, fun hreq more => ?_⟩
  · exact frameRequestHead_of_unfinished w limits
      ((unfinished_of_incomplete w limits hwhole).take n) scanned head
  · exact frameRequestHead_append w limits hreq more
  · rcases hfirst with hsame | ⟨-, hbare⟩
    · rw [hsame] at hreq ⊢
      exact frameRequestHead_append w limits hreq more
    · rw [hbare] at hreq
      cases hreq

/-- A head in three reads, the second of them cutting its CR LF CR LF. -/
theorem framing_independent_of_reads_get :
    let b := ascii "GET / HTTP/1.0\r\n\r\n"
    let limits : HeadLimits := ⟨8192, 4096, 1024⟩
    (firstAnswer .packed limits b [5, 16, 18] 0 none).1 = .request 18 false 0 := by
  intro b limits
  have hwhole : (frameRequestHead .packed limits b 0 none).1 = .request 18 false 0 := by
    decide +kernel
  rcases (framing_independent_of_reads .packed limits b [5, 16, 18] (by decide) (by decide) none).1
    with hsame | ⟨href, -⟩
  · rw [hsame]
    exact hwhole
  · rw [hwhole] at href
    cases href

/-- **The two head framers agree**: a head that the terminator search ends at `h` and that the
parser accepts ends there for the parser too, in CR LF CR LF, and every LF of it is preceded by
CR. No run of calls is therefore ever answered REFUSED_FRAMERS_DISAGREE. -/
theorem framers_agree (w : IndexWords) (buffer : Bytes) :
    (∀ h p, findHeaderEnd buffer 0 = some h → parseRequestHeaders w (buffer.take h) = .ok p →
        p.bytesConsumed = h ∧ (∃ t, buffer.take h = t ++ (crlf ++ crlf)) ∧
          NoBareLf (buffer.take h)) ∧
      ∀ limits head ns, ns.Pairwise (· < ·) →
        (firstAnswer w limits buffer ns 0 head).1.rule ≠ .framersDisagree := by
  refine ⟨fun h p hh hp => ?_, fun limits head ns hinc => ?_⟩
  · rw [findHeaderEnd_zero] at hh
    exact parse_ends_at_headEnd hh hp
  · rcases firstAnswer_zero w limits (b := buffer) hinc head with ⟨n, -, hnot, heq⟩ | ⟨-, heq⟩
    · rw [heq]
      cases hn : headEnd (buffer.take n) with
      | some h =>
        rw [frameRequestHead_of_headEnd w limits hn]
        exact decideHead_rule hn head
      | none =>
        have hlf : ¬ NoBareLf (buffer.take n) := fun hlf => hnot ⟨hn, hlf⟩
        rw [frameRequestHead_of_bareLf w limits hn hlf]
        simp [HeadFraming.refused]
    · rw [heq]
      simp [HeadFraming.incomplete]

/-- Two empty lines' worth of bytes behind a head change neither framer's answer. -/
theorem framers_agree_get :
    let buffer := ascii "GET / HTTP/1.0\r\nA: b\r\n\r\n\r\n\r\n"
    ∃ p, parseRequestHeaders .packed (buffer.take 24) = .ok p ∧ p.bytesConsumed = 24 := by
  intro buffer
  have hok : (parseRequestHeaders .packed (buffer.take 24)).isOk = true := by decide +kernel
  cases hp : parseRequestHeaders .packed (buffer.take 24) with
  | error e =>
    rw [hp] at hok
    cases hok
  | ok p => exact ⟨p, rfl, ((framers_agree .packed buffer).1 24 p (by decide +kernel) hp).1⟩

end MojoHttp
