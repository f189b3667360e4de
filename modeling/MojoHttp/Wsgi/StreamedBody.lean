import MojoHttp.Bytes

/-!
# A WSGI body, buffered or streamed (`m0_shim.py`)

One application run twice: its iterable joined by `_run_wsgi`, or kept and pulled by `wsgi_stream_next`,
with what it passes to `write()` put in front of the next chunk.

* **`WsgiShim.pump_spec`** — what a stream sends is what the application produced, in that order.
* **`agrees_iff`** — the buffered body is the same bytes exactly if `write()` output in front of all chunks is.
-/

namespace MojoHttp

/-- What an application does while its iterable is iterated. -/
inductive AppEvent where
  | write (data : Bytes)
  | yield (chunk : Bytes)
  deriving Repr, DecidableEq

/-- What the application returned. -/
structure AppResult where
  /-- `bytes`, `bytearray`, a list or a tuple. -/
  sized : Bool
  /-- `getattr(result, 'streaming', None)`. -/
  streaming : Option Bool
  hasClose : Bool
  events : List AppEvent
  deriving Repr, DecidableEq

/-- What it passed to `start_response`. -/
structure AppHead where
  /-- `int(status[:3])`, if that is a number. -/
  code : Option Int
  headers : List (Bytes × Bytes)
  deriving Repr, DecidableEq

/-- A run of the application: what it did before it returned, and what it does from there. -/
structure AppRun where
  /-- Before it returned; later is too late to stream. -/
  started : Option AppHead
  before : List Bytes
  result : AppResult
  deriving Repr, DecidableEq

/-- The globals of the shim, and how often an iterable was closed. -/
structure WsgiShim where
  streamCapable : Bool
  /-- `_stream_result`: whether the result kept has a `close`. -/
  result : Option Bool
  /-- `_stream_iter`: what is left of the iteration. -/
  iter : Option (List AppEvent)
  first : Bytes
  written : List Bytes
  closes : Nat
  deriving Repr, DecidableEq

/-- `_lazily_produced`. -/
def lazilyProduced (streamCapable : Bool) (result : AppResult) (head : AppHead) : Bool :=
  if !streamCapable then false
  else if result.sized then false
  else if result.streaming == some false then false
  else
    match head.code with
    | none => false
    | some code =>
      if code < 200 || code == 204 || code == 304 then false
      else !head.headers.any fun header =>
        asciiLowercase header.1 == ascii "content-length" || asciiLowercase header.1 == ascii "m0-hold"

/-- `next(it)` until a chunk that is not empty: the chunk, what is left, and what was written meanwhile. -/
def nextChunk : List AppEvent → List Bytes → Option Bytes × List AppEvent × List Bytes
  | [], written => (none, [], written)
  | .write data :: rest, written => nextChunk rest (written ++ [data])
  | .yield chunk :: rest, written => if chunk.isEmpty then nextChunk rest written else (some chunk, rest, written)

/-- `b''.join(result)`: every chunk, and what was written meanwhile. -/
def joinChunks : List AppEvent → List Bytes → Bytes × List Bytes
  | [], written => ([], written)
  | .write data :: rest, written => joinChunks rest (written ++ [data])
  | .yield chunk :: rest, written =>
    let joined := joinChunks rest written
    (chunk ++ joined.1, joined.2)

namespace WsgiShim

def new (streamCapable : Bool) : WsgiShim := ⟨streamCapable, none, none, [], [], 0⟩

/-- `close()` of a result, where it has one. -/
def closeResult (sh : WsgiShim) (hasClose : Bool) : WsgiShim :=
  if hasClose then { sh with closes := sh.closes + 1 } else sh

/-- `_run_wsgi`: the body, and whether it is streamed instead. -/
def runWsgi (sh : WsgiShim) (isHead : Bool) (app : AppRun) : WsgiShim × Bytes × Bool :=
  let lazily :=
    match app.started with
    | none => false
    | some head => lazilyProduced sh.streamCapable app.result head
  if isHead && lazily then
    -- the head is all it gets: pulled to its first chunk, and closed
    let pulled := nextChunk app.result.events app.before
    (sh.closeResult app.result.hasClose, if pulled.1.isSome then [] else pulled.2.2.flatten, false)
  else if !isHead && lazily then
    let pulled := nextChunk app.result.events app.before
    match pulled.1 with
    | some first =>
      ({ sh with
        result := some app.result.hasClose
        iter := some pulled.2.1
        written := []
        first := pulled.2.2.flatten ++ first }, [], true)
    | none => (sh.closeResult app.result.hasClose, pulled.2.2.flatten, false)
  else
    let joined := joinChunks app.result.events app.before
    (sh.closeResult app.result.hasClose, joined.2.flatten ++ joined.1, false)

/-- `wsgi_stream_next`: the next chunk to send, nothing at the end. -/
def streamNext (sh : WsgiShim) : WsgiShim × Bytes :=
  match sh.iter with
  | none => (sh, [])
  | some events =>
    if !sh.first.isEmpty then ({ sh with first := [] }, sh.first)
    else
      let pulled := nextChunk events sh.written
      let sh := { sh with iter := some pulled.2.1, written := pulled.2.2 }
      match pulled.1 with
      | none =>
        if !sh.written.isEmpty then ({ sh with written := [] }, sh.written.flatten) else (sh, [])
      | some chunk =>
        if !sh.written.isEmpty then ({ sh with written := [] }, sh.written.flatten ++ chunk) else (sh, chunk)

/-- `wsgi_stream_close`. -/
def streamClose (sh : WsgiShim) : WsgiShim :=
  let cleared := { sh with result := none, iter := none, first := [], written := [] }
  match sh.result with
  | some hasClose => cleared.closeResult hasClose
  | none => cleared

/-- The thread's pulls: `wsgi_stream_next` until it returns nothing. What it returned, and whether it did
return nothing within `fuel` calls. -/
def pump : (fuel : Nat) → WsgiShim → WsgiShim × List Bytes × Bool
  | 0, sh => (sh, [], false)
  | fuel + 1, sh =>
    let out := sh.streamNext
    if out.2.isEmpty then (out.1, [], true)
    else
      let rest := pump fuel out.1
      (rest.1, out.2 :: rest.2.1, rest.2.2)

end WsgiShim

/-! ## What an application produced -/

namespace AppEvent

def bytes : AppEvent → Bytes
  | .write data => data
  | .yield chunk => chunk

def written : AppEvent → Bytes
  | .write data => data
  | .yield _ => []

def yielded : AppEvent → Bytes
  | .write _ => []
  | .yield chunk => chunk

end AppEvent

/-- In the order it was produced. -/
def produced (events : List AppEvent) : Bytes := events.flatMap AppEvent.bytes

def writes (events : List AppEvent) : Bytes := events.flatMap AppEvent.written

def yields (events : List AppEvent) : Bytes := events.flatMap AppEvent.yielded

theorem joinChunks_eq (events : List AppEvent) (written : List Bytes) :
    (joinChunks events written).1 = yields events ∧
      (joinChunks events written).2.flatten = written.flatten ++ writes events := by
  induction events generalizing written with
  | nil => exact ⟨rfl, (List.append_nil _).symm⟩
  | cons event events ih =>
    cases event with
    | write data =>
      obtain ⟨hchunks, hwritten⟩ := ih (written ++ [data])
      refine ⟨hchunks, hwritten.trans ?_⟩
      rw [List.flatten_append, List.flatten_singleton, List.append_assoc]
      rfl
    | yield chunk =>
      obtain ⟨hchunks, hwritten⟩ := ih written
      exact ⟨congrArg (chunk ++ ·) hchunks, hwritten⟩

/-- Pulling one chunk moves what there is from the application to the shim, in order. -/
theorem nextChunk_spec (events : List AppEvent) (written : List Bytes) :
    (∀ chunk, (nextChunk events written).1 = some chunk →
      chunk ≠ [] ∧ (nextChunk events written).2.1.length < events.length ∧
        written.flatten ++ produced events =
          (nextChunk events written).2.2.flatten ++ chunk ++ produced (nextChunk events written).2.1) ∧
      ((nextChunk events written).1 = none →
        (nextChunk events written).2.1 = [] ∧ written.flatten ++ produced events = (nextChunk events written).2.2.flatten ∧
          yields events = []) := by
  induction events generalizing written with
  | nil =>
    refine ⟨fun chunk hchunk => (nomatch hchunk), fun _ => ⟨rfl, List.append_nil _, rfl⟩⟩
  | cons event events ih =>
    cases event with
    | write data =>
      obtain ⟨hsome, hnone⟩ := ih (written ++ [data])
      have hmoved : written.flatten ++ produced (.write data :: events) =
          (written ++ [data]).flatten ++ produced events := by
        rw [List.flatten_append, List.flatten_singleton, List.append_assoc]
        rfl
      rw [hmoved]
      refine ⟨fun chunk hchunk => ?_, hnone⟩
      obtain ⟨hne, hless, heq⟩ := hsome chunk hchunk
      exact ⟨hne, Nat.lt_succ_of_lt hless, heq⟩
    | yield chunk =>
      cases chunk with
      | nil =>
        obtain ⟨hsome, hnone⟩ := ih written
        refine ⟨fun chunk hchunk => ?_, hnone⟩
        obtain ⟨hne, hless, heq⟩ := hsome chunk hchunk
        exact ⟨hne, Nat.lt_succ_of_lt hless, heq⟩
      | cons b chunk =>
        refine ⟨fun chunk' hchunk => ?_, fun hnone => (nomatch hnone)⟩
        rw [← Option.some.inj hchunk]
        exact ⟨List.cons_ne_nil b chunk, Nat.lt_succ_self _, (List.append_assoc _ _ _).symm⟩

namespace WsgiShim

/-! ## The stream -/

/-- What a shim that keeps an iterable has yet to send. -/
def owed (sh : WsgiShim) : Bytes :=
  match sh.iter with
  | none => []
  | some events => sh.first ++ sh.written.flatten ++ produced events

/-- How many pulls that takes at most. -/
def pulls (sh : WsgiShim) : Nat :=
  match sh.iter with
  | none => 0
  | some events => (if sh.first.isEmpty then 0 else 1) + (if sh.written.isEmpty then 0 else 1) + events.length

/-- One pull hands out the front of what is owed, and nothing only where nothing is. -/
theorem streamNext_spec (sh : WsgiShim) :
    sh.owed = sh.streamNext.2 ++ sh.streamNext.1.owed ∧ (sh.streamNext.2 = [] → sh.owed = []) ∧
      (sh.streamNext.2 ≠ [] → sh.streamNext.1.pulls < sh.pulls) ∧
        sh.streamNext.1.result = sh.result ∧ sh.streamNext.1.closes = sh.closes := by
  unfold streamNext owed pulls
  cases hiter : sh.iter with
  | none =>
    dsimp only
    rw [hiter]
    exact ⟨rfl, fun _ => rfl, fun hne => absurd rfl hne, rfl, rfl⟩
  | some events =>
    dsimp only
    split
    · -- the first chunk, kept since the head
      next hkept =>
      rw [Bool.not_eq_true', ← Bool.not_eq_true, List.isEmpty_iff] at hkept
      refine ⟨?_, fun hnone => absurd hnone hkept, fun _ => ?_, rfl, rfl⟩
      · rw [List.nil_append, List.append_assoc]
      · have hone : (if sh.first.isEmpty = true then 0 else 1) = 1 :=
          if_neg (by rw [List.isEmpty_iff]; exact hkept)
        rw [hone]
        simp only [List.isEmpty_nil, if_true]
        omega
    · next hsent =>
      rw [Bool.not_eq_true', Bool.not_eq_false, List.isEmpty_iff] at hsent
      obtain ⟨hsome, hnone⟩ := nextChunk_spec events sh.written
      rw [hsent, List.nil_append, if_pos List.isEmpty_nil]
      cases hchunk : (nextChunk events sh.written).1 with
      | some chunk =>
        obtain ⟨hne, hless, heq⟩ := hsome chunk hchunk
        dsimp only
        split
        · refine ⟨?_, fun hempty => absurd (List.append_eq_nil_iff.mp hempty).2 hne, fun _ => ?_, rfl, rfl⟩
          · rw [heq]
            rfl
          · dsimp only
            simp only [List.isEmpty_nil, if_true]
            omega
        · next hwritten =>
          rw [Bool.not_eq_true', Bool.not_eq_false, List.isEmpty_iff] at hwritten
          rw [hwritten] at heq
          refine ⟨?_, fun hempty => absurd hempty hne, fun _ => ?_, rfl, rfl⟩
          · rw [heq, hwritten]
            rfl
          · dsimp only
            rw [hwritten]
            simp only [List.isEmpty_nil, if_true]
            omega
      | none =>
        obtain ⟨hrest, heq, -⟩ := hnone hchunk
        dsimp only
        split
        · next hwritten =>
          rw [Bool.not_eq_true', ← Bool.not_eq_true, List.isEmpty_iff] at hwritten
          refine ⟨?_, fun hempty => ?_, fun _ => ?_, rfl, rfl⟩
          · rw [heq, hrest]
            exact (List.append_nil _).symm
          · rw [heq]
            exact hempty
          · dsimp only
            rw [hrest]
            simp only [List.isEmpty_nil, if_true]
            -- something was there to be written
            rcases Decidable.em (events = [] ∧ sh.written = []) with ⟨rfl, hnothing⟩ | hmore
            · rw [hnothing] at hwritten
              exact absurd rfl hwritten
            · rcases not_and_or.mp hmore with hevents | hwas
              · have hpos := List.length_pos_of_ne_nil hevents
                rw [List.length_nil]
                omega
              · rw [if_neg (by rw [List.isEmpty_iff]; exact hwas)]
                rw [List.length_nil]
                omega
        · next hwritten =>
          rw [Bool.not_eq_true', Bool.not_eq_false, List.isEmpty_iff] at hwritten
          rw [hwritten] at heq
          refine ⟨?_, fun _ => heq, fun hne => absurd rfl hne, rfl, rfl⟩
          rw [heq, hrest, hwritten]
          rfl

/-- **What a stream sends** is what it is owed, and the pulls for it end. -/
theorem pump_spec (fuel : Nat) (sh : WsgiShim) (hfuel : sh.pulls < fuel) :
    (pump fuel sh).2.1.flatten = sh.owed ∧ (pump fuel sh).2.2 = true ∧
      (pump fuel sh).1.result = sh.result ∧ (pump fuel sh).1.closes = sh.closes := by
  induction fuel generalizing sh with
  | zero => exact absurd hfuel (Nat.not_lt_zero _)
  | succ fuel ih =>
    obtain ⟨howed, hend, hless, hresult, hcloses⟩ := streamNext_spec sh
    unfold pump
    dsimp only
    split
    · next hempty =>
      rw [List.isEmpty_iff] at hempty
      exact ⟨(hend hempty).symm, rfl, hresult, hcloses⟩
    · next hmore =>
      rw [List.isEmpty_iff] at hmore
      have hfewer := hless hmore
      obtain ⟨hsent, hended, hresult', hcloses'⟩ := ih sh.streamNext.1 (by omega)
      refine ⟨?_, hended, hresult'.trans hresult, hcloses'.trans hcloses⟩
      rw [List.flatten_cons, hsent, ← howed]

end WsgiShim

/-! ## The two bodies -/

/-- The application's result is one to stream. -/
def AppRun.lazily (app : AppRun) : Bool :=
  match app.started with
  | none => false
  | some head => lazilyProduced true app.result head

/-- The answer to a request that is not a HEAD, where bodies are joined. -/
def buffered (app : AppRun) : WsgiShim × Bytes :=
  let answer := (WsgiShim.new false).runWsgi false app
  (answer.1, answer.2.1)

/-- And where they may be streamed: pulled until nothing comes, and closed. -/
def streamed (app : AppRun) (fuel : Nat) : WsgiShim × Bytes × Bool :=
  let answer := (WsgiShim.new true).runWsgi false app
  if answer.2.2 then
    let sent := answer.1.pump fuel
    (sent.1.streamClose, sent.2.1.flatten, sent.2.2)
  else (answer.1, answer.2.1, true)

/-- The body is the same, all of it comes, and each time the result was closed once. -/
def Agrees (app : AppRun) : Prop :=
  ∀ fuel, app.result.events.length + 2 ≤ fuel →
    (streamed app fuel).2.2 = true ∧ (streamed app fuel).2.1 = (buffered app).2 ∧
      (streamed app fuel).1.closes = (if app.result.hasClose then 1 else 0) ∧
        (buffered app).1.closes = (if app.result.hasClose then 1 else 0)

/-- What the application produced, in the order that it did, is what it wrote and then what it yielded. -/
def AppRun.Unmoved (app : AppRun) : Prop :=
  produced app.result.events = writes app.result.events ++ yields app.result.events

theorem closes_closeResult (sh : WsgiShim) (hasClose : Bool) :
    (sh.closeResult hasClose).closes = sh.closes + if hasClose then 1 else 0 := by
  unfold WsgiShim.closeResult
  cases hasClose <;> rfl

/-- What an application that is not streamed is answered with. -/
theorem runWsgi_joined {sh : WsgiShim} {app : AppRun}
    (hlazily : (match app.started with
      | none => false
      | some head => lazilyProduced sh.streamCapable app.result head) = false) :
    sh.runWsgi false app = (sh.closeResult app.result.hasClose,
      app.before.flatten ++ (writes app.result.events ++ yields app.result.events), false) := by
  obtain ⟨hchunks, hwritten⟩ := joinChunks_eq app.result.events app.before
  unfold WsgiShim.runWsgi
  dsimp only
  rw [hlazily, hchunks, hwritten, List.append_assoc]
  rfl

theorem buffered_eq (app : AppRun) :
    (buffered app).2 = app.before.flatten ++ (writes app.result.events ++ yields app.result.events) ∧
      (buffered app).1.closes = if app.result.hasClose then 1 else 0 := by
  have hnot : (match app.started with
      | none => false
      | some head => lazilyProduced (WsgiShim.new false).streamCapable app.result head) = false := by
    cases app.started with
    | none => rfl
    | some head => rfl
  have hjoined := @runWsgi_joined (WsgiShim.new false) app hnot
  unfold buffered
  dsimp only
  rw [hjoined, closes_closeResult]
  exact ⟨rfl, Nat.zero_add _⟩

/-- A result that is not one to stream is joined there too. -/
theorem streamed_joined {app : AppRun} (hlazily : app.lazily = false) (fuel : Nat) :
    (streamed app fuel).2.2 = true ∧ (streamed app fuel).2.1 = (buffered app).2 ∧
      (streamed app fuel).1.closes = if app.result.hasClose then 1 else 0 := by
  have hjoined := @runWsgi_joined (WsgiShim.new true) app hlazily
  unfold streamed
  dsimp only
  rw [hjoined, if_neg Bool.false_ne_true, closes_closeResult, (buffered_eq app).1]
  exact ⟨rfl, rfl, Nat.zero_add _⟩

/-- **A result to stream** is sent as it was produced. -/
theorem streamed_lazily {app : AppRun} (hlazily : app.lazily = true) {fuel : Nat}
    (hfuel : app.result.events.length + 2 ≤ fuel) :
    (streamed app fuel).2.2 = true ∧
      (streamed app fuel).2.1 = app.before.flatten ++ produced app.result.events ∧
        (streamed app fuel).1.closes = if app.result.hasClose then 1 else 0 := by
  obtain ⟨hsome, hnone⟩ := nextChunk_spec app.result.events app.before
  have hlazily' : (match app.started with
      | none => false
      | some head => lazilyProduced (WsgiShim.new true).streamCapable app.result head) = true := hlazily
  unfold streamed WsgiShim.runWsgi
  dsimp only
  rw [hlazily', Bool.and_true, Bool.and_true, if_neg Bool.false_ne_true, Bool.not_false, if_pos rfl]
  cases hchunk : (nextChunk app.result.events app.before).1 with
  | none =>
    -- exhausted with nothing: what was written is the body
    obtain ⟨-, heq, -⟩ := hnone hchunk
    dsimp only
    rw [if_neg Bool.false_ne_true, closes_closeResult, heq]
    exact ⟨rfl, rfl, Nat.zero_add _⟩
  | some chunk =>
    obtain ⟨hne, hless, heq⟩ := hsome chunk hchunk
    dsimp only
    rw [if_pos rfl]
    generalize hsh : ({ WsgiShim.new true with
      result := some app.result.hasClose
      iter := some (nextChunk app.result.events app.before).2.1
      written := []
      first := (nextChunk app.result.events app.before).2.2.flatten ++ chunk } : WsgiShim) = sh
    have hpulls : sh.pulls < fuel := by
      rw [← hsh]
      unfold WsgiShim.pulls
      simp only [List.isEmpty_nil, if_true]
      split <;> omega
    obtain ⟨hsent, hended, hresult, hcloses⟩ := WsgiShim.pump_spec fuel sh hpulls
    have howed : sh.owed = app.before.flatten ++ produced app.result.events := by
      rw [← hsh, heq]
      unfold WsgiShim.owed
      simp
    have hheld : (WsgiShim.pump fuel sh).1.result = some app.result.hasClose := hresult.trans (by rw [← hsh])
    have hnone : (WsgiShim.pump fuel sh).1.closes = 0 := hcloses.trans (by rw [← hsh]; rfl)
    refine ⟨hended, hsent.trans howed, ?_⟩
    unfold WsgiShim.streamClose
    dsimp only
    rw [hheld]
    dsimp only
    rw [closes_closeResult]
    dsimp only
    rw [hnone]
    exact Nat.zero_add _

/-- **The two bodies are the same** exactly where a result is not one to stream, or where putting all that was
written in front of all that was yielded moves nothing. -/
theorem agrees_iff (app : AppRun) : Agrees app ↔ app.lazily = false ∨ app.Unmoved := by
  obtain ⟨hbody, hcloses⟩ := buffered_eq app
  cases hlazily : app.lazily with
  | false =>
    refine iff_of_true (fun fuel _ => ?_) (Or.inl rfl)
    obtain ⟨hended, hsame, hclosed⟩ := streamed_joined hlazily fuel
    exact ⟨hended, hsame, hclosed, hcloses⟩
  | true =>
    constructor
    · intro hagrees
      have hsame := (hagrees _ (Nat.le_refl _)).2.1
      rw [(streamed_lazily hlazily (Nat.le_refl _)).2.1, hbody] at hsame
      exact Or.inr (List.append_cancel_left hsame)
    · rintro (hnot | hunmoved)
      · cases hnot
      · intro fuel hfuel
        obtain ⟨hended, hsent, hclosed⟩ := streamed_lazily hlazily hfuel
        refine ⟨hended, ?_, hclosed, hcloses⟩
        rw [hsent, hbody, hunmoved]

/-- A generator that writes between two chunks. -/
theorem not_the_same_bytes : ¬ ∀ app : AppRun, app.lazily = true → Agrees app := by
  intro hall
  have hagrees := hall ⟨some ⟨some 200, []⟩, [ascii "w0-"], ⟨false, none, true,
    [.yield (ascii "y0-"), .write (ascii "w1-"), .yield (ascii "y1-"), .write (ascii "w2-")]⟩⟩ (by decide)
  have hsame := (hagrees 6 (by decide)).2.1
  revert hsame
  decide

end MojoHttp
