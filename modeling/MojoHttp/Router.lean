import MojoHttp.Bytes
import Mathlib.Data.List.Basic

/-!
# The route table (`router.mojo`)

A `Router` keeps its patterns in one flat blob, with parallel arrays of offsets into it, and
matches a path by walking both.

* **`Router.routes`** — the table read back: each route's method, pattern and handler.
* **`Built.routes_add`** — `add` puts one route behind the others.
* **`Built.match_eq`** — `match` answers with the first route of the method whose pattern takes the
  path; for a HEAD that none is registered for, with the first GET one.
-/

namespace MojoHttp

open BytesConstant

/-! ## The segments of a path -/

/-- `while pos < n and p(pb[pos]): pos += 1`. -/
def scanWhile (p : UInt8 → Bool) (pb : Bytes) (pos : Nat) : Nat :=
  pos + ((pb.drop pos).takeWhile p).length

/-- The walk `add`, `_count_segments`, `_path_matches` and `_captured` share: past the slashes,
then up to the next. `fuel` bounds the segments. -/
def segmentsFrom (pb : Bytes) : (fuel pos : Nat) → List Bytes
  | 0, _ => []
  | fuel + 1, pos =>
    let start := scanWhile (· == SLASH) pb pos
    if start ≥ pb.length then []
    else
      let stop := scanWhile (· != SLASH) pb start
      slice pb start stop :: segmentsFrom pb fuel stop

/-- The segments of a path or a pattern. -/
def segments (pb : Bytes) : List Bytes := segmentsFrom pb pb.length 0

/-- A pattern's segment: written `:name` it matches anything and keeps only the name. -/
structure PatternSegment where
  isParam : Bool
  text : Bytes
  deriving Repr, DecidableEq

def patternSegment (seg : Bytes) : PatternSegment :=
  let isParam := seg.getD 0 0 == COLON
  ⟨isParam, if isParam then seg.drop 1 else seg⟩

/-! ## The table -/

structure Router where
  /-- Every method and every pattern segment, back to back. -/
  buf : Bytes
  segOff : List Nat
  segLen : List Nat
  segIsParam : List Bool
  /-- Where each route's segments begin in the segment arrays. -/
  rSegStart : List Nat
  rSegCount : List Nat
  rMethOff : List Nat
  rMethLen : List Nat
  rHandler : List Nat
  deriving Repr, DecidableEq

inductive MatchResult where
  | found (handlerId : Nat) (params : List Bytes)
  | methodNotAllowed
  | notFound
  deriving Repr, DecidableEq

namespace Router

/-- `Router()`. -/
def empty : Router := ⟨[], [], [], [], [], [], [], [], []⟩

/-- One turn of the loop in `add`. -/
def addSegment (rt : Router) (seg : PatternSegment) : Router :=
  { rt with
    buf := rt.buf ++ seg.text
    segOff := rt.segOff ++ [rt.buf.length]
    segLen := rt.segLen ++ [seg.text.length]
    segIsParam := rt.segIsParam ++ [seg.isParam] }

/-- The part of `add` in front of its loop: the method goes into the blob. -/
def addMethod (rt : Router) (method : Bytes) : Router :=
  { rt with
    buf := rt.buf ++ method
    rMethOff := rt.rMethOff ++ [rt.buf.length]
    rMethLen := rt.rMethLen ++ [method.length]
    rSegStart := rt.rSegStart ++ [rt.segOff.length] }

/-- `add`. -/
def add (rt : Router) (method pattern : Bytes) (handlerId : Nat) : Router :=
  let segs := (segments pattern).map patternSegment
  let rt := segs.foldl addSegment (rt.addMethod method)
  { rt with
    rSegCount := rt.rSegCount ++ [segs.length]
    rHandler := rt.rHandler ++ [handlerId] }

/-- The blob's bytes at `off` are `probe`, `len` bytes long: `_segment_eq` and `_method_eq`. -/
def bufEq (rt : Router) (off len : Nat) (probe : Bytes) : Bool :=
  len == probe.length && (List.range len).all fun j => rt.buf.getD (off + j) 0 == probe.getD j 0

def segmentEq (rt : Router) (k : Nat) (probe : Bytes) : Bool :=
  rt.bufEq (rt.segOff.getD k 0) (rt.segLen.getD k 0) probe

def methodEq (rt : Router) (r : Nat) (probe : Bytes) : Bool :=
  rt.bufEq (rt.rMethOff.getD r 0) (rt.rMethLen.getD r 0) probe

/-- The loop of `_path_matches` over the path's segments, pattern segments from `k` on. -/
def pathMatchesFrom (rt : Router) : List Bytes → (k : Nat) → Bool
  | [], _ => true
  | seg :: segs, k =>
    (rt.segIsParam.getD k false || rt.segmentEq k seg) && rt.pathMatchesFrom segs (k + 1)

/-- `_path_matches`. -/
def pathMatches (rt : Router) (r : Nat) (segs : List Bytes) : Bool :=
  rt.rSegCount.getD r 0 == segs.length && rt.pathMatchesFrom segs (rt.rSegStart.getD r 0)

/-- The loop of `_captured`. -/
def capturedFrom (rt : Router) : List Bytes → (k : Nat) → List Bytes
  | [], _ => []
  | seg :: segs, k =>
    if rt.segIsParam.getD k false then seg :: rt.capturedFrom segs (k + 1)
    else rt.capturedFrom segs (k + 1)

/-- `_captured`. -/
def captured (rt : Router) (r : Nat) (segs : List Bytes) : MatchResult :=
  .found (rt.rHandler.getD r 0) (rt.capturedFrom segs (rt.rSegStart.getD r 0))

/-- The loop of `match` over the routes still to come, with its `path_matched` and `get_twin`. -/
def matchFrom (rt : Router) (method : Bytes) (segs : List Bytes) :
    List Nat → (pathMatched : Bool) → (getTwin : Option Nat) → MatchResult
  | [], pathMatched, getTwin =>
    match getTwin with
    | some r => rt.captured r segs
    | none => if pathMatched then .methodNotAllowed else .notFound
  | r :: rs, pathMatched, getTwin =>
    if !rt.pathMatches r segs then rt.matchFrom method segs rs pathMatched getTwin
    else if !rt.methodEq r method then
      -- only a HEAD looks for a GET twin, and keeps the first
      let twin := if method == ascii "HEAD" && getTwin.isNone && rt.methodEq r (ascii "GET")
        then some r else getTwin
      rt.matchFrom method segs rs true twin
    else rt.captured r segs

/-- `match`. -/
def matchRoute (rt : Router) (method path : Bytes) : MatchResult :=
  rt.matchFrom method (segments path) (List.range rt.rHandler.length) false none

end Router

/-! ## What a table says -/

/-- A route as it was registered. -/
structure Route where
  method : Bytes
  pattern : List PatternSegment
  handler : Nat
  deriving Repr, DecidableEq

/-- The pattern takes the path's segments, one for one. -/
def takes : List PatternSegment → List Bytes → Bool
  | [], [] => true
  | p :: ps, seg :: segs => (p.isParam || p.text == seg) && takes ps segs
  | _, _ => false

/-- What the `:name` segments stand over. -/
def captures : List PatternSegment → List Bytes → List Bytes
  | p :: ps, seg :: segs => if p.isParam then seg :: captures ps segs else captures ps segs
  | _, _ => []

/-- The first of `rs` that is registered for `probe` and takes the path; for a HEAD that none is
registered for, the first GET one. -/
def firstTaking {α : Type*} (method : α → Bytes) (pattern : α → List PatternSegment) (probe : Bytes)
    (segs : List Bytes) (rs : List α) : Option α :=
  (rs.find? fun r => takes (pattern r) segs && method r == probe).or
    (if probe == ascii "HEAD" then rs.find? fun r => takes (pattern r) segs && method r == ascii "GET"
    else none)

theorem firstTaking_map {α β : Type*} (f : α → β) (method : β → Bytes)
    (pattern : β → List PatternSegment) (probe : Bytes) (segs : List Bytes) (rs : List α) :
    firstTaking method pattern probe segs (rs.map f) =
      (firstTaking (method ∘ f) (pattern ∘ f) probe segs rs).map f := by
  simp only [firstTaking, List.find?_map, Function.comp_def]
  split <;> simp [Option.map_or]

theorem mem_of_firstTaking {α : Type*} {method : α → Bytes} {pattern : α → List PatternSegment}
    {probe : Bytes} {segs : List Bytes} {rs : List α} {r : α}
    (h : firstTaking method pattern probe segs rs = some r) : r ∈ rs := by
  rw [firstTaking, Option.or_eq_some_iff] at h
  rcases h with h | ⟨_, h⟩
  · exact List.mem_of_find?_eq_some h
  · split at h
    · exact List.mem_of_find?_eq_some h
    · cases h

/-- A route that answers from the whole table answers from any part of it that holds it. -/
theorem firstTaking_filter {α : Type*} {method : α → Bytes} {pattern : α → List PatternSegment}
    {probe : Bytes} {segs : List Bytes} {rs : List α} {r : α}
    (h : firstTaking method pattern probe segs rs = some r) {p : α → Bool} (hp : p r = true) :
    firstTaking method pattern probe segs (rs.filter p) = some r := by
  have hfound : ∀ q : α → Bool, rs.find? q = some r → (rs.filter p).find? q = some r := by
    intro q hq
    rw [List.find?_eq_some_iff_append] at hq ⊢
    obtain ⟨hqr, as, bs, rfl, hbefore⟩ := hq
    refine ⟨hqr, as.filter p, bs.filter p, by simp [hp], fun a ha => ?_⟩
    exact hbefore a (List.mem_of_mem_filter ha)
  have hmissed : ∀ q : α → Bool, rs.find? q = none → (rs.filter p).find? q = none := by
    intro q hq
    rw [List.find?_eq_none] at hq ⊢
    intro a ha
    exact hq a (List.mem_of_mem_filter ha)
  rw [firstTaking, Option.or_eq_some_iff] at h
  rw [firstTaking, Option.or_eq_some_iff]
  rcases h with h | ⟨hnone, htwin⟩
  · exact Or.inl (hfound _ h)
  · split at htwin
    · next hhead => exact Or.inr ⟨hmissed _ hnone, by rw [if_pos hhead]; exact hfound _ htwin⟩
    · cases htwin

/-- What answers from a part of the table has something to answer from in the whole. -/
theorem firstTaking_of_filter {α : Type*} {method : α → Bytes} {pattern : α → List PatternSegment}
    {probe : Bytes} {segs : List Bytes} {rs : List α} {p : α → Bool}
    (h : (firstTaking method pattern probe segs (rs.filter p)).isSome = true) :
    (firstTaking method pattern probe segs rs).isSome = true := by
  have hfound : ∀ q : α → Bool, ((rs.filter p).find? q).isSome = true →
      (rs.find? q).isSome = true := by
    intro q hq
    rw [List.find?_isSome] at hq ⊢
    obtain ⟨a, ha, hqa⟩ := hq
    exact ⟨a, List.mem_of_mem_filter ha, hqa⟩
  rw [firstTaking, Option.isSome_or, Bool.or_eq_true] at h ⊢
  rcases h with h | h
  · exact Or.inl (hfound _ h)
  · split at h
    · next hhead => exact Or.inr (by rw [if_pos hhead]; exact hfound _ h)
    · cases h

namespace Router

def segment (rt : Router) (k : Nat) : PatternSegment :=
  let off := rt.segOff.getD k 0
  ⟨rt.segIsParam.getD k false, slice rt.buf off (off + rt.segLen.getD k 0)⟩

def route (rt : Router) (r : Nat) : Route where
  method := slice rt.buf (rt.rMethOff.getD r 0) (rt.rMethOff.getD r 0 + rt.rMethLen.getD r 0)
  pattern := (List.range' (rt.rSegStart.getD r 0) (rt.rSegCount.getD r 0)).map rt.segment
  handler := rt.rHandler.getD r 0

/-- The table read back. -/
def routes (rt : Router) : List Route := (List.range rt.rHandler.length).map rt.route

/-! ## The blob -/

/-- The segment arrays run in parallel and name bytes of the blob. -/
structure SegsBuilt (rt : Router) : Prop where
  segLen : rt.segLen.length = rt.segOff.length
  segIsParam : rt.segIsParam.length = rt.segOff.length
  inBlob : ∀ k < rt.segOff.length, rt.segOff.getD k 0 + rt.segLen.getD k 0 ≤ rt.buf.length

/-- So do the route arrays, and each route's segments are among them. -/
structure Built (rt : Router) : Prop extends rt.SegsBuilt where
  rSegStart : rt.rSegStart.length = rt.rHandler.length
  rSegCount : rt.rSegCount.length = rt.rHandler.length
  rMethOff : rt.rMethOff.length = rt.rHandler.length
  rMethLen : rt.rMethLen.length = rt.rHandler.length
  methodInBlob : ∀ r < rt.rHandler.length,
    rt.rMethOff.getD r 0 + rt.rMethLen.getD r 0 ≤ rt.buf.length
  inArrays : ∀ r < rt.rHandler.length,
    rt.rSegStart.getD r 0 + rt.rSegCount.getD r 0 ≤ rt.segOff.length

theorem built_empty : empty.Built := by
  constructor
  · constructor <;> simp [empty]
  all_goals simp [empty]

theorem slice_append_left {b t : Bytes} {off len : Nat} (h : off + len ≤ b.length) :
    slice (b ++ t) off (off + len) = slice b off (off + len) := by
  unfold slice
  rw [List.drop_append_of_le_length (by omega), List.take_append_of_le_length]
  rw [List.length_drop]
  omega

theorem slice_append_right (b t : Bytes) : slice (b ++ t) b.length (b.length + t.length) = t := by
  simp [slice]

theorem bufEq_eq {rt : Router} {off len : Nat} (h : off + len ≤ rt.buf.length) (probe : Bytes) :
    rt.bufEq off len probe = (slice rt.buf off (off + len) == probe) := by
  have hlen : (slice rt.buf off (off + len)).length = len := by
    rw [length_slice]
    omega
  rw [Bool.eq_iff_iff, bufEq, Bool.and_eq_true, beq_iff_eq, beq_iff_eq, List.all_eq_true]
  constructor
  · rintro ⟨hl, hall⟩
    refine List.ext_getElem (by omega) fun j hj hj' => ?_
    have hat := hall j (by rw [List.mem_range]; omega)
    rw [beq_iff_eq, List.getD_eq_getElem _ _ (by omega), List.getD_eq_getElem _ _ hj'] at hat
    rw [← hat]
    simp [slice]
  · rintro rfl
    refine ⟨hlen.symm, fun j hj => ?_⟩
    rw [List.mem_range] at hj
    rw [beq_iff_eq, List.getD_eq_getElem _ _ (by omega), List.getD_eq_getElem _ _ (by omega)]
    simp [slice]

/-- `rt'` keeps what `rt` has of the blob and of the segments. -/
structure Keeps (rt rt' : Router) : Prop where
  buf : ∃ t, rt'.buf = rt.buf ++ t
  segOff : ∃ t, rt'.segOff = rt.segOff ++ t
  segLen : ∃ t, rt'.segLen = rt.segLen ++ t
  segIsParam : ∃ t, rt'.segIsParam = rt.segIsParam ++ t

theorem Keeps.refl (rt : Router) : rt.Keeps rt :=
  ⟨⟨[], by simp⟩, ⟨[], by simp⟩, ⟨[], by simp⟩, ⟨[], by simp⟩⟩

theorem Keeps.trans {rt rt' rt'' : Router} (h : rt.Keeps rt') (h' : rt'.Keeps rt'') :
    rt.Keeps rt'' := by
  obtain ⟨⟨a, ha⟩, ⟨b, hb⟩, ⟨c, hc⟩, ⟨d, hd⟩⟩ := h
  obtain ⟨⟨a', ha'⟩, ⟨b', hb'⟩, ⟨c', hc'⟩, ⟨d', hd'⟩⟩ := h'
  exact ⟨⟨a ++ a', by rw [ha', ha, List.append_assoc]⟩, ⟨b ++ b', by rw [hb', hb, List.append_assoc]⟩,
    ⟨c ++ c', by rw [hc', hc, List.append_assoc]⟩, ⟨d ++ d', by rw [hd', hd, List.append_assoc]⟩⟩

theorem Keeps.segment {rt rt' : Router} (h : rt.Keeps rt') (hb : rt.SegsBuilt) {k : Nat}
    (hk : k < rt.segOff.length) : rt'.segment k = rt.segment k := by
  obtain ⟨⟨t, hbuf⟩, ⟨a, hoff⟩, ⟨c, hlen⟩, ⟨d, hparam⟩⟩ := h
  have hkl := hb.segLen
  have hkp := hb.segIsParam
  simp only [Router.segment, hbuf, hoff, hlen, hparam, List.getD_append _ _ _ _ hk]
  rw [List.getD_append _ _ _ _ (by omega), List.getD_append _ _ _ _ (by omega),
    slice_append_left (hb.inBlob k hk)]

/-! ## `add` -/

theorem addSegment_keeps (rt : Router) (seg : PatternSegment) : rt.Keeps (rt.addSegment seg) :=
  ⟨⟨_, rfl⟩, ⟨_, rfl⟩, ⟨_, rfl⟩, ⟨_, rfl⟩⟩

theorem getD_snoc {α : Type*} {l : List α} {n : Nat} (h : l.length = n) (a d : α) :
    (l ++ [a]).getD n d = a := by
  simp [List.getD_eq_getElem?_getD, ← h]

theorem addSegment_built {rt : Router} (h : rt.SegsBuilt) (seg : PatternSegment) :
    (rt.addSegment seg).SegsBuilt := by
  refine ⟨by simp [addSegment, h.segLen], by simp [addSegment, h.segIsParam], ?_⟩
  intro k hk
  have hlen := h.segLen
  simp only [addSegment, List.length_append, List.length_singleton] at hk ⊢
  rcases Nat.lt_or_ge k rt.segOff.length with hlt | hge
  · rw [List.getD_append _ _ _ _ hlt, List.getD_append _ _ _ _ (by omega)]
    have := h.inBlob k hlt
    omega
  · have hk' : k = rt.segOff.length := by omega
    subst hk'
    rw [getD_snoc rfl, getD_snoc hlen]

theorem addSegment_segment {rt : Router} (h : rt.SegsBuilt) (seg : PatternSegment) :
    (rt.addSegment seg).segment rt.segOff.length = seg := by
  have hlen := h.segLen
  have hparam := h.segIsParam
  simp only [Router.segment, addSegment]
  rw [getD_snoc rfl, getD_snoc hlen, getD_snoc hparam, slice_append_right]

/-- What the loop of `add` leaves: the segments given, behind those there were. -/
structure Filled (rt : Router) (segs : List PatternSegment) (rt' : Router) : Prop where
  keeps : rt.Keeps rt'
  built : rt'.SegsBuilt
  length : rt'.segOff.length = rt.segOff.length + segs.length
  segments : (List.range' rt.segOff.length segs.length).map rt'.segment = segs
  rSegStart : rt'.rSegStart = rt.rSegStart
  rSegCount : rt'.rSegCount = rt.rSegCount
  rMethOff : rt'.rMethOff = rt.rMethOff
  rMethLen : rt'.rMethLen = rt.rMethLen
  rHandler : rt'.rHandler = rt.rHandler

theorem filled_foldl (segs : List PatternSegment) {rt : Router} (h : rt.SegsBuilt) :
    rt.Filled segs (segs.foldl addSegment rt) := by
  induction segs generalizing rt with
  | nil => exact ⟨Keeps.refl rt, h, rfl, rfl, rfl, rfl, rfl, rfl, rfl⟩
  | cons seg segs ih =>
    have hadd := addSegment_built h seg
    have hrest := ih hadd
    have hlen : (rt.addSegment seg).segOff.length = rt.segOff.length + 1 := by simp [addSegment]
    rw [List.foldl_cons]
    refine ⟨(addSegment_keeps rt seg).trans hrest.keeps, hrest.built, ?_, ?_, hrest.rSegStart,
      hrest.rSegCount, hrest.rMethOff, hrest.rMethLen, hrest.rHandler⟩
    · rw [hrest.length, hlen, List.length_cons]
      omega
    · rw [List.length_cons, List.range'_succ, List.map_cons, ← hlen, hrest.segments]
      rw [hrest.keeps.segment hadd (by omega), addSegment_segment h]

theorem addMethod_built {rt : Router} (h : rt.Built) (method : Bytes) :
    (rt.addMethod method).SegsBuilt := by
  refine ⟨h.segLen, h.segIsParam, fun k hk => ?_⟩
  have := h.inBlob k hk
  simp only [addMethod, List.length_append]
  omega

theorem addMethod_keeps (rt : Router) (method : Bytes) : rt.Keeps (rt.addMethod method) :=
  ⟨⟨_, rfl⟩, ⟨[], by simp [addMethod]⟩, ⟨[], by simp [addMethod]⟩, ⟨[], by simp [addMethod]⟩⟩

/-- The route `add` puts in. -/
def newRoute (method pattern : Bytes) (handlerId : Nat) : Route :=
  ⟨method, (segments pattern).map patternSegment, handlerId⟩

theorem filled_add {rt : Router} (h : rt.Built) (method pattern : Bytes) :
    (rt.addMethod method).Filled ((segments pattern).map patternSegment)
      (((segments pattern).map patternSegment).foldl addSegment (rt.addMethod method)) :=
  filled_foldl _ (addMethod_built h method)

theorem add_keeps {rt : Router} (h : rt.Built) (method pattern : Bytes) (handlerId : Nat) :
    rt.Keeps (rt.add method pattern handlerId) := by
  have hfilled := (filled_add h method pattern).keeps
  exact (addMethod_keeps rt method).trans ⟨hfilled.buf, hfilled.segOff, hfilled.segLen,
    hfilled.segIsParam⟩

/-- What `add` does to the arrays of the routes. -/
theorem add_arrays {rt : Router} (h : rt.Built) (method pattern : Bytes) (handlerId : Nat) :
    (rt.add method pattern handlerId).rSegStart = rt.rSegStart ++ [rt.segOff.length] ∧
    (rt.add method pattern handlerId).rSegCount = rt.rSegCount ++ [(segments pattern).length] ∧
    (rt.add method pattern handlerId).rMethOff = rt.rMethOff ++ [rt.buf.length] ∧
    (rt.add method pattern handlerId).rMethLen = rt.rMethLen ++ [method.length] ∧
    (rt.add method pattern handlerId).rHandler = rt.rHandler ++ [handlerId] := by
  have hf := filled_add h method pattern
  simp only [add, hf.rSegStart, hf.rSegCount, hf.rMethOff, hf.rMethLen, hf.rHandler,
    List.length_map]
  exact ⟨rfl, rfl, rfl, rfl, rfl⟩

theorem length_add {rt : Router} (h : rt.Built) (method pattern : Bytes) (handlerId : Nat) :
    (rt.add method pattern handlerId).segOff.length =
      rt.segOff.length + (segments pattern).length := by
  show (((segments pattern).map patternSegment).foldl addSegment
    (rt.addMethod method)).segOff.length = _
  rw [(filled_add h method pattern).length, List.length_map]
  rfl

/-- The blob keeps the new method right behind the bytes it had. -/
theorem add_buf {rt : Router} (h : rt.Built) (method pattern : Bytes) (handlerId : Nat) :
    ∃ t, (rt.add method pattern handlerId).buf = rt.buf ++ method ++ t :=
  (filled_add h method pattern).keeps.buf

theorem built_add {rt : Router} (h : rt.Built) (method pattern : Bytes) (handlerId : Nat) :
    (rt.add method pattern handlerId).Built := by
  have hsegs := (filled_add h method pattern).built
  have ⟨hstart, hcount, hoff, hlen, hhandler⟩ := add_arrays h method pattern handlerId
  have ⟨t, hbuf⟩ := add_buf h method pattern handlerId
  have hsegOff := length_add h method pattern handlerId
  have ⟨_, h1, h2, h3, h4, hmeth, harr⟩ := h
  constructor
  · exact ⟨hsegs.segLen, hsegs.segIsParam, hsegs.inBlob⟩
  · simp [hstart, hhandler, h1]
  · simp [hcount, hhandler, h2]
  · simp [hoff, hhandler, h3]
  · simp [hlen, hhandler, h4]
  -- an earlier route's bytes stay where they were; the new one's are the blob's next
  · intro r hr
    rw [hhandler, List.length_append, List.length_singleton] at hr
    rw [hoff, hlen, hbuf, List.length_append, List.length_append]
    rcases Nat.lt_or_ge r rt.rHandler.length with hlt | hge
    · rw [List.getD_append _ _ _ _ (by omega), List.getD_append _ _ _ _ (by omega)]
      have := hmeth r hlt
      omega
    · have hr' : r = rt.rHandler.length := by omega
      subst hr'
      rw [getD_snoc h3, getD_snoc h4]
      omega
  · intro r hr
    rw [hhandler, List.length_append, List.length_singleton] at hr
    rw [hstart, hcount, hsegOff]
    rcases Nat.lt_or_ge r rt.rHandler.length with hlt | hge
    · rw [List.getD_append _ _ _ _ (by omega), List.getD_append _ _ _ _ (by omega)]
      have := harr r hlt
      omega
    · have hr' : r = rt.rHandler.length := by omega
      subst hr'
      rw [getD_snoc h1, getD_snoc h2]

/-- `add` leaves the routes there were. -/
theorem route_add_of_lt {rt : Router} (h : rt.Built) (method pattern : Bytes) (handlerId : Nat)
    {r : Nat} (hr : r < rt.rHandler.length) :
    (rt.add method pattern handlerId).route r = rt.route r := by
  have ⟨hstart, hcount, hoff, hlen, hhandler⟩ := add_arrays h method pattern handlerId
  have hkeeps := add_keeps h method pattern handlerId
  have ⟨t, hbuf⟩ := hkeeps.buf
  have hmeth := h.methodInBlob r hr
  have harr := h.inArrays r hr
  have hs := h.rSegStart
  have hc := h.rSegCount
  have ho := h.rMethOff
  have hl := h.rMethLen
  simp only [route, hstart, hcount, hoff, hlen, hhandler, hbuf]
  rw [List.getD_append _ _ _ _ (by omega), List.getD_append _ _ _ _ (by omega),
    List.getD_append _ _ _ _ (by omega), List.getD_append _ _ _ _ (by omega),
    List.getD_append _ _ _ _ hr, slice_append_left hmeth]
  congr 1
  apply List.map_congr_left
  intro k hk
  rw [List.mem_range'_1] at hk
  exact hkeeps.segment h.toSegsBuilt (by omega)

theorem route_add_last {rt : Router} (h : rt.Built) (method pattern : Bytes) (handlerId : Nat) :
    (rt.add method pattern handlerId).route rt.rHandler.length =
      newRoute method pattern handlerId := by
  have ⟨hstart, hcount, hoff, hlen, hhandler⟩ := add_arrays h method pattern handlerId
  have ⟨t, hbuf⟩ := add_buf h method pattern handlerId
  have hsegs : (List.range' rt.segOff.length (segments pattern).length).map
      (rt.add method pattern handlerId).segment = (segments pattern).map patternSegment := by
    have := (filled_add h method pattern).segments
    rw [List.length_map] at this
    exact this
  simp only [route, newRoute, hstart, hcount, hoff, hlen, hhandler, hbuf]
  rw [getD_snoc h.rMethOff, getD_snoc h.rMethLen, getD_snoc h.rSegStart, getD_snoc h.rSegCount,
    getD_snoc rfl, hsegs, slice_append_left (by simp), slice_append_right]

/-- `add` puts one route behind the others. -/
theorem Built.routes_add {rt : Router} (h : rt.Built) (method pattern : Bytes) (handlerId : Nat) :
    (rt.add method pattern handlerId).routes = rt.routes ++ [newRoute method pattern handlerId] := by
  have ⟨_, _, _, _, hhandler⟩ := add_arrays h method pattern handlerId
  rw [routes, hhandler, List.length_append, List.length_singleton, List.range_succ, List.map_append,
    List.map_singleton, route_add_last h]
  congr 1
  apply List.map_congr_left
  intro r hr
  exact route_add_of_lt h method pattern handlerId (List.mem_range.mp hr)

/-! ## `match` -/

theorem pathMatchesFrom_eq {rt : Router} (h : rt.SegsBuilt) (segs : List Bytes) {k : Nat}
    (hk : k + segs.length ≤ rt.segOff.length) :
    rt.pathMatchesFrom segs k = takes ((List.range' k segs.length).map rt.segment) segs := by
  induction segs generalizing k with
  | nil => rfl
  | cons seg segs ih =>
    rw [List.length_cons] at hk
    rw [pathMatchesFrom, segmentEq, bufEq_eq (h.inBlob k (by omega)), ih (by omega)]
    rfl

theorem length_of_takes {ps : List PatternSegment} {segs : List Bytes}
    (h : takes ps segs = true) : ps.length = segs.length := by
  induction ps generalizing segs with
  | nil =>
    cases segs with
    | nil => rfl
    | cons seg segs => simp [takes] at h
  | cons p ps ih =>
    cases segs with
    | nil => simp [takes] at h
    | cons seg segs =>
      rw [takes, Bool.and_eq_true] at h
      rw [List.length_cons, List.length_cons, ih h.2]

theorem length_route (rt : Router) (r : Nat) :
    (rt.route r).pattern.length = rt.rSegCount.getD r 0 := by
  simp [route]

/-- `_path_matches` is the pattern taking the path. -/
theorem pathMatches_eq {rt : Router} (h : rt.Built) {r : Nat} (hr : r < rt.rHandler.length)
    (segs : List Bytes) : rt.pathMatches r segs = takes (rt.route r).pattern segs := by
  have harr := h.inArrays r hr
  rcases Decidable.em (rt.rSegCount.getD r 0 = segs.length) with heq | hne
  · rw [pathMatches, heq, beq_self_eq_true, Bool.true_and,
      pathMatchesFrom_eq h.toSegsBuilt _ (by omega), route, heq]
  · have hno : takes (rt.route r).pattern segs = false := by
      rw [Bool.eq_false_iff]
      intro htakes
      exact hne ((length_route rt r).symm.trans (length_of_takes htakes))
    rw [pathMatches, hno, Bool.and_eq_false_iff]
    exact Or.inl (beq_eq_false_iff_ne.mpr hne)

theorem methodEq_eq {rt : Router} (h : rt.Built) {r : Nat} (hr : r < rt.rHandler.length)
    (probe : Bytes) : rt.methodEq r probe = ((rt.route r).method == probe) :=
  bufEq_eq (h.methodInBlob r hr) probe

theorem capturedFrom_eq (rt : Router) (segs : List Bytes) (k : Nat) :
    rt.capturedFrom segs k = captures ((List.range' k segs.length).map rt.segment) segs := by
  induction segs generalizing k with
  | nil => rfl
  | cons seg segs ih =>
    rw [capturedFrom, ih]
    rfl

/-- `_captured`, of a route that takes the path. -/
theorem captured_eq {rt : Router} {r : Nat} {segs : List Bytes}
    (h : takes (rt.route r).pattern segs = true) :
    rt.captured r segs = .found (rt.route r).handler (captures (rt.route r).pattern segs) := by
  have hlen := length_of_takes h
  rw [length_route] at hlen
  rw [captured, capturedFrom_eq, route, hlen]

/-- What `match` says of the route it settled on. -/
def outcome (rt : Router) (segs : List Bytes) (pathMatched : Bool) : Option Nat → MatchResult
  | some r => .found (rt.route r).handler (captures (rt.route r).pattern segs)
  | none => if pathMatched then .methodNotAllowed else .notFound

/-- The loop of `match`: a route of the method settles it; else the twin kept so far, else the
first one still to come. -/
theorem matchFrom_eq {rt : Router} (h : rt.Built) (method : Bytes) (segs : List Bytes)
    (rs : List Nat) (hrs : ∀ r ∈ rs, r < rt.rHandler.length) (pathMatched : Bool)
    (getTwin : Option Nat)
    (htwin : ∀ r ∈ getTwin, takes (rt.route r).pattern segs = true) :
    rt.matchFrom method segs rs pathMatched getTwin =
      rt.outcome segs (pathMatched || rs.any fun r => takes (rt.route r).pattern segs)
        ((rs.find? fun r => takes (rt.route r).pattern segs && (rt.route r).method == method).or
          (getTwin.or (if method == ascii "HEAD" then
            rs.find? fun r => takes (rt.route r).pattern segs && (rt.route r).method == ascii "GET"
          else none))) := by
  induction rs generalizing pathMatched getTwin with
  | nil =>
    cases getTwin with
    | none => simp [matchFrom, outcome]
    | some r => simp [matchFrom, outcome, captured_eq (htwin r rfl)]
  | cons r rs ih =>
    have hr := hrs r List.mem_cons_self
    have hrest := fun x hx => hrs x (List.mem_cons_of_mem r hx)
    rw [matchFrom, pathMatches_eq h hr, methodEq_eq h hr, methodEq_eq h hr]
    cases htakes : takes (rt.route r).pattern segs with
    | false => simp [htakes, ih hrest pathMatched getTwin htwin]
    | true =>
      cases hmethod : (rt.route r).method == method with
      | true => simp [htakes, hmethod, captured_eq htakes, outcome]
      | false =>
        cases getTwin with
        | some t => simp [htakes, hmethod, ih hrest true (some t) htwin]
        | none =>
          cases hhead : method == ascii "HEAD" with
          | false => simp [htakes, hmethod, ih hrest true none (by simp), hhead]
          | true =>
            cases hget : (rt.route r).method == ascii "GET" with
            | false => simp [htakes, hmethod, ih hrest true none (by simp), hhead, hget]
            | true =>
              simp [htakes, hmethod, hhead, hget, ih hrest true (some r) (by simp [htakes])]

theorem outcome_eq (rt : Router) (method : Bytes) (segs : List Bytes) (pathMatched : Bool) :
    rt.outcome segs pathMatched
        (firstTaking (Route.method ∘ rt.route) (Route.pattern ∘ rt.route) method segs
          (List.range rt.rHandler.length)) =
      match firstTaking Route.method Route.pattern method segs rt.routes with
      | some r => .found r.handler (captures r.pattern segs)
      | none => if pathMatched then .methodNotAllowed else .notFound := by
  rw [routes, firstTaking_map]
  cases firstTaking (Route.method ∘ rt.route) (Route.pattern ∘ rt.route) method segs
    (List.range rt.rHandler.length) with
  | none => rfl
  | some r => rfl

/-- `match` answers with the first route of the method whose pattern takes the path; for a HEAD that
none is registered for, with the first GET one. -/
theorem Built.match_eq {rt : Router} (h : rt.Built) (method path : Bytes) :
    rt.matchRoute method path =
      match firstTaking Route.method Route.pattern method (segments path) rt.routes with
      | some r => .found r.handler (captures r.pattern (segments path))
      | none =>
        if rt.routes.any fun r => takes r.pattern (segments path) then .methodNotAllowed
        else .notFound := by
  have hany : (List.range rt.rHandler.length).any
      (fun r => takes (rt.route r).pattern (segments path)) =
        rt.routes.any fun r => takes r.pattern (segments path) := by
    rw [routes, List.any_map]
    rfl
  rw [matchRoute, matchFrom_eq h method _ _ (fun r hr => List.mem_range.mp hr) false none (by simp),
    Bool.false_or, Option.none_or, hany, ← outcome_eq]
  rfl

end Router

end MojoHttp
