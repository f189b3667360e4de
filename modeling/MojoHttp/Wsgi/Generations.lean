import MojoHttp.Wsgi.Isolation

/-!
# Generations (`offload_wire.mojo`, `asgi_executor.mojo`, `blocking_pool.mojo`)

The producers of streams on a loop share no counter: each numbers its own streams from a seed of its own.

* **`Streams.Numbered`** — a generation in flight, or known to the handler, was counted, and once.
* **`generations_fresh`** — so a begin that arrives names no stream there was, and is a step of `World`.
-/

namespace MojoHttp

/-- Who starts streams on a loop. -/
inductive StreamProducer where
  /-- Of the lane one less (a loop has 126 at most); the unmounted executor is 0. -/
  | executor (lane : Fin 127)
  /-- A pool thread. -/
  | thread (index : Nat)
  deriving Repr, DecidableEq

/-- `stream_gen_seed`. -/
def streamGenSeed (producer : Int) : Int := (producer + 1) * 2 ^ 32 + 1

namespace StreamProducer

/-- What each gives `stream_gen_seed`. -/
def id : StreamProducer → Int
  | .executor lane => lane
  | .thread index => 1024 + index

/-- The generation behind `n` others. -/
def gen (p : StreamProducer) (n : Nat) : Int := streamGenSeed p.id + n

def sends : StreamProducer → FrameKind → Bool
  | .executor _, .begin => true
  | .executor _, .socketBegin => true
  | .thread _, .poolBegin => true
  | _, _ => false

end StreamProducer

/-- A begin frame. -/
structure Begin where
  url : Bytes
  gen : Int
  payload : Bytes
  deriving Repr, DecidableEq

/-- The handler, how many generations each producer has used, and the begins that the channel holds. -/
structure Streams where
  world : World
  used : StreamProducer → Nat
  flight : List Begin

namespace Streams

inductive Label where
  /-- A stream or a socket starts; `placed` says that the channel took its begin. -/
  | start (p : StreamProducer) (url payload : Bytes) (placed : Bool)
  /-- What the handler meets. -/
  | handle (l : World.Label)
  deriving Repr, DecidableEq

def isBegin (url : Bytes) : Bool :=
  isReserved url && [some .begin, some .poolBegin, some .socketBegin].contains (frameKind url)

/-- What a begin makes of the handler, whether or not its generation is in use. -/
def begun (w : World) (b : Begin) (counter : Int) : World :=
  ⟨w.h.ssePeerFrame b.url b.gen b.payload counter [],
    Function.update w.producers b.gen
      (some ⟨parseStreamSlot b.url, frameKind b.url == some .socketBegin, false, [], []⟩)⟩

def next (s : Streams) : Label → Option Streams
  | .start p url payload placed =>
    let used := Function.update s.used p (s.used p + 1)
    if !(isReserved url && (frameKind url).any p.sends) then none
    else if placed then some ⟨s.world, used, s.flight ++ [⟨url, p.gen (s.used p), payload⟩]⟩
    else
      match p with
      -- `_dispatch` counts before it sends
      | .executor _ => some ⟨s.world, used, s.flight⟩
      -- `_pool_serve` counts behind a begin that was sent
      | .thread _ => some s
  | .handle (.frame url gen payload counter) =>
    if isBegin url then
      if ⟨url, gen, payload⟩ ∈ s.flight ∧ 0 ≤ parseStreamSlot url ∧ s.world.free (parseStreamSlot url) then
        some ⟨begun s.world ⟨url, gen, payload⟩ counter, s.used, s.flight.erase ⟨url, gen, payload⟩⟩
      else none
    else (s.world.next (.frame url gen payload counter)).map fun w => { s with world := w }
  | .handle l => (s.world.next l).map fun w => { s with world := w }

def system (w : World) : LabelledSystem Streams Label := ⟨⟨w, fun _ => 0, []⟩, next⟩

/-- A generation that its producer has counted. -/
def Counted (s : Streams) (gen : Int) : Prop := ∃ p n, n < s.used p ∧ gen = StreamProducer.gen p n

structure Numbered (s : Streams) : Prop where
  named : ∀ gen, s.world.producers gen ≠ none → s.Counted gen
  flying : ∀ b ∈ s.flight, s.Counted b.gen
  fresh : ∀ b ∈ s.flight, s.world.producers b.gen = none
  apart : s.flight.Pairwise fun a b => a.gen ≠ b.gen

end Streams

/-! ## The ranges -/

/-- **Two producers share no generation**, and one does not use a generation twice. -/
theorem StreamProducer.gen_inj {p q : StreamProducer} {m n : Nat} (hm : m < 2 ^ 32) (hn : n < 2 ^ 32)
    (h : p.gen m = q.gen n) : p = q ∧ m = n := by
  unfold gen streamGenSeed at h
  have hid : p.id = q.id := by omega
  refine ⟨?_, by omega⟩
  cases p with
  | executor lane =>
    cases q with
    | executor other => exact congrArg _ (Fin.ext (Int.ofNat_inj.mp hid))
    | thread index =>
      simp only [id] at hid
      omega
  | thread index =>
    cases q with
    | executor lane =>
      simp only [id] at hid
      omega
    | thread other =>
      simp only [id] at hid
      rw [show index = other by omega]

theorem StreamProducer.gen_pos (p : StreamProducer) (n : Nat) : 0 < p.gen n := by
  unfold gen streamGenSeed
  cases p <;> simp only [id] <;> omega

/-! ## Only a begin names a stream -/

namespace World

variable {w w' : World} {g : Int}

theorem ne_of_named {gen : Int} {p : Producer} (hg : w.producers g = none)
    (hp : w.producers gen = some p) : g ≠ gen := by
  rintro rfl
  cases hg.symm.trans hp

theorem named_of_sends {slot gen : Int} {socket ends : Bool} {pieces} {h : WSGIHandler}
    (hnext : w.sends slot socket gen pieces ends h = some w')
    (hg : w.producers g = none) : w'.producers g = none := by
  unfold sends at hnext
  cases hp : w.producers gen with
  | none =>
    rw [hp] at hnext
    cases hnext
  | some p =>
    rw [hp] at hnext
    obtain ⟨-, hnext⟩ := Option.ite_none_right_eq_some.mp hnext
    obtain rfl := Option.some.inj hnext
    exact (Function.update_of_ne (ne_of_named hg hp) _ _).trans hg

/-- A step that takes no begin. -/
theorem named_of_next {l : Label} (hnext : w.next l = some w')
    (hbegin : ∀ url gen payload counter, l = .frame url gen payload counter → Streams.isBegin url = false)
    (hg : w.producers g = none) : w'.producers g = none := by
  cases l with
  | frame url id payload counter =>
    have hno := hbegin _ _ _ _ rfl
    unfold next at hnext
    dsimp only at hnext
    split at hnext
    · cases hnext
      exact hg
    · next hin =>
      rw [Bool.or_eq_true, not_or, Bool.not_eq_true', Bool.not_eq_false] at hin
      rw [Streams.isBegin, hin.1, Bool.true_and] at hno
      cases hkind : frameKind url with
      | none =>
        rw [hkind] at hnext
        cases hnext
        exact hg
      | some kind =>
        rw [hkind] at hno hnext
        cases kind with
        | begin | poolBegin | socketBegin => cases hno
        | consumed => cases hnext
        | hold | socketHold =>
          obtain rfl := Option.some.inj (Option.ite_none_right_eq_some.mp hnext).2
          exact hg
        | _ => exact named_of_sends hnext hg
  | drain slot =>
    obtain rfl := Option.some.inj hnext
    cases htenant : w.tenant slot with
    | none => exact hg
    | some p =>
      have hp : w.producers (w.h.streamGen slot) = some p := (Option.ite_none_right_eq_some.mp htenant).2
      exact (Function.update_of_ne (ne_of_named hg hp) _ _).trans hg
  | disconnected slot =>
    obtain rfl := Option.some.inj hnext
    exact hg

/-- A begin with a generation of its own. -/
theorem next_begin {b : Begin} (hbegin : Streams.isBegin b.url = true) (hslot : 0 ≤ parseStreamSlot b.url)
    (hfree : w.free (parseStreamSlot b.url) = true) (hpos : 0 < b.gen) (hnone : w.producers b.gen = none)
    (counter : Int) :
    w.next (.frame b.url b.gen b.payload counter) = some (Streams.begun w b counter) := by
  have hbegins : ∀ socket h, w.begins (parseStreamSlot b.url) socket b.gen h =
      some ⟨h, Function.update w.producers b.gen
        (some ⟨parseStreamSlot b.url, socket, false, [], []⟩)⟩ := by
    intro socket h
    unfold begins
    rw [hnone, hfree, decide_eq_true hpos]
    rfl
  obtain ⟨hurl, hkinds⟩ := Bool.and_eq_true_iff.mp hbegin
  simp only [next, Streams.begun]
  rw [hurl, decide_eq_false (Int.not_lt.mpr hslot), if_neg (by decide)]
  cases hkind : frameKind b.url with
  | none =>
    rw [hkind] at hkinds
    cases hkinds
  | some kind =>
    rw [hkind] at hkinds
    cases kind with
    | begin | poolBegin => exact hbegins false _
    | socketBegin => exact hbegins true _
    | _ => cases hkinds

end World

/-! ## Every generation once -/

namespace Streams

variable {s s' : Streams}

theorem le_count (used : StreamProducer → Nat) (p q : StreamProducer) :
    used q ≤ Function.update used p (used p + 1) q := by
  by_cases hsame : q = p
  · rw [hsame, Function.update_self]
    omega
  · rw [Function.update_of_ne hsame]

theorem Counted.mono {gen : Int} (h : s.Counted gen) (hle : ∀ p, s.used p ≤ s'.used p) : s'.Counted gen := by
  obtain ⟨p, n, hn, hgen⟩ := h
  exact ⟨p, n, Nat.lt_of_lt_of_le hn (hle p), hgen⟩

theorem Numbered.start (hs : s.Numbered) (hroom : ∀ p, s.used p < 2 ^ 32) {p : StreamProducer}
    {url payload : Bytes} {placed : Bool} (hnext : s.next (.start p url payload placed) = some s') :
    s'.Numbered := by
  have hle := le_count s.used p
  -- no generation that was counted is the one behind them
  have hnew : ∀ gen, s.Counted gen → gen ≠ p.gen (s.used p) := by
    rintro gen ⟨q, n, hn, rfl⟩ hsame
    obtain ⟨rfl, hcount⟩ := StreamProducer.gen_inj (Nat.lt_trans hn (hroom q)) (hroom p) hsame
    omega
  unfold next at hnext
  obtain ⟨-, hnext⟩ := Option.ite_none_left_eq_some.mp hnext
  cases placed with
  | true =>
    obtain rfl := Option.some.inj hnext
    refine ⟨fun gen hgen => (hs.named gen hgen).mono hle, ?_, ?_, ?_⟩
    · refine List.forall_mem_append.mpr ⟨fun b hb => (hs.flying b hb).mono hle, List.forall_mem_singleton.mpr ?_⟩
      refine ⟨p, s.used p, ?_, rfl⟩
      show s.used p < Function.update s.used p (s.used p + 1) p
      rw [Function.update_self]
      omega
    · refine List.forall_mem_append.mpr ⟨hs.fresh, List.forall_mem_singleton.mpr ?_⟩
      by_contra hold
      exact hnew _ (hs.named _ hold) rfl
    · refine List.pairwise_append.mpr ⟨hs.apart, List.pairwise_singleton _ _, fun a ha b hb => ?_⟩
      rw [List.mem_singleton.mp hb]
      exact hnew _ (hs.flying a ha)
  | false =>
    cases p with
    | executor lane =>
      obtain rfl := Option.some.inj hnext
      exact ⟨fun gen hgen => (hs.named gen hgen).mono hle, fun b hb => (hs.flying b hb).mono hle, hs.fresh,
        hs.apart⟩
    | thread index =>
      obtain rfl := Option.some.inj hnext
      exact hs

/-- A begin leaves the channel and is a step of `World`; what is no begin names nothing. -/
theorem Numbered.handle (hs : s.Numbered) {l : World.Label} (hnext : s.next (.handle l) = some s') :
    s'.Numbered ∧ s.world.next l = some s'.world := by
  have hquiet : (s.world.next l).map (fun w => { s with world := w }) = some s' →
      (∀ url gen payload counter, l = .frame url gen payload counter → isBegin url = false) →
        s'.Numbered ∧ s.world.next l = some s'.world := by
    intro hmap hbegin
    obtain ⟨w, hw, rfl⟩ := Option.map_eq_some_iff.mp hmap
    exact ⟨⟨fun gen hgen => hs.named gen fun hnone => hgen (World.named_of_next hw hbegin hnone), hs.flying,
      fun b hb => World.named_of_next hw hbegin (hs.fresh b hb), hs.apart⟩, hw⟩
  cases l with
  | drain slot => exact hquiet hnext fun _ _ _ _ h => nomatch h
  | disconnected slot => exact hquiet hnext fun _ _ _ _ h => nomatch h
  | frame url gen payload counter =>
    unfold next at hnext
    dsimp only at hnext
    cases hbegin : isBegin url with
    | false =>
      rw [hbegin, if_neg (by decide)] at hnext
      refine hquiet hnext fun _ _ _ _ h => ?_
      cases h
      exact hbegin
    | true =>
      rw [hbegin, if_pos rfl] at hnext
      obtain ⟨⟨hmem, hslot, hfree⟩, hnext⟩ := Option.ite_none_right_eq_some.mp hnext
      obtain rfl := Option.some.inj hnext
      have hcounted : s.Counted gen := hs.flying _ hmem
      have hnone : s.world.producers gen = none := hs.fresh _ hmem
      have hpos : 0 < gen := by
        obtain ⟨p, n, -, rfl⟩ := hcounted
        exact p.gen_pos n
      -- the begins that stay have other generations
      obtain ⟨hothers, hapart⟩ := List.pairwise_cons.mp
        (((List.perm_cons_erase hmem).pairwise_iff fun h => h.symm).mp hs.apart)
      refine ⟨⟨fun g hg => ?_, fun b hb => hs.flying b (List.mem_of_mem_erase hb), fun b hb => ?_, hapart⟩,
        World.next_begin (b := ⟨url, gen, payload⟩) hbegin hslot hfree hpos hnone counter⟩
      · by_cases hsame : g = gen
        · exact hsame ▸ hcounted
        · exact hs.named g fun hold => hg ((Function.update_of_ne hsame _ _).trans hold)
      · exact (Function.update_of_ne (hothers b hb).symm _ _).trans (hs.fresh b (List.mem_of_mem_erase hb))

end Streams

open Streams in
/-- **The producers number their streams apart**: however they start them, and whenever the begins arrive, every
step of the handler is one of `World`, where a begin brings a generation that no stream had before. -/
theorem generations_fresh (w : World) (hw : ∀ gen, w.producers gen = none) (x : (system w).Execution)
    (hroom : ∀ k < x.labels.length, ∀ p, (x.state k).used p < 2 ^ 32) (k : Nat) (l : World.Label)
    (hl : x.labels[k]? = some (.handle l)) : (x.state k).world.next l = some (x.state (k + 1)).world := by
  have hnumbered : (x.state k).Numbered := by
    refine x.stays (Nat.zero_le k) (Nat.le_of_lt (x.lt_length hl)) ?_ fun k l _ _ hl hs => ?_
    · rw [x.start]
      exact ⟨fun gen hgen => absurd (hw gen) hgen, fun _ hb => (nomatch hb), fun _ hb => (nomatch hb),
        List.Pairwise.nil⟩
    · cases l with
      | start p url payload placed => exact hs.start (hroom k (x.lt_length hl)) (x.steps hl)
      | handle l => exact (hs.handle (x.steps hl)).1
  exact (hnumbered.handle (x.steps hl)).2

namespace Streams

/-- The first stream of the unmounted executor. -/
def firstStream : (system World.vacant).Execution :=
  .ofRun _ [.start (.executor 0) (reservedStreamUrl 0x62 0 0) [] true,
    .handle (.frame (reservedStreamUrl 0x62 0 0) 4294967297 [] 0)] rfl

end Streams

theorem generations_fresh_first :
    World.vacant.next (.frame (reservedStreamUrl 0x62 0 0) 4294967297 [] 0) =
      some (Streams.firstStream.state 2).world := by
  refine generations_fresh World.vacant (fun _ => rfl) Streams.firstStream ?_ 1 _ rfl
  intro k hk p
  have hcount : ∀ q : StreamProducer, Function.update (fun _ => 0) q 1 p < 2 ^ 32 := by
    intro q
    rw [Function.update_apply]
    split <;> decide
  match k with
  | 0 => exact (by decide : 0 < 2 ^ 32)
  | 1 => exact hcount (.executor 0)

end MojoHttp
