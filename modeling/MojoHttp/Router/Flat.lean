import MojoHttp.Router
import Mathlib.Data.Int.Order.Basic

/-!
# The route table as its arrays hold it (`router.mojo`)

`Router` keeps offsets, lengths, counts and handler ids as 32-bit numbers, and walks the path by position
three times over: to count its segments, to compare them with a pattern's and to capture some of them.

* **`FlatRouter`** — the arrays and the three walks.
* **`FlatRouter.Refines`** — the arrays hold what those of `Router` do, 32 bits wide.
* **`pieces`**, **`firstMatch`** — what a table says: the pieces of a path between its slashes, and the first
  route whose pieces match.
* **`FlatRouter.match_eq_firstMatch`** — the table of calls that 32 bits can hold answers as `firstMatch` does.
-/

namespace MojoHttp

open BytesConstant

/-- A route as `add` is given it. -/
structure RouteCall where
  method : Bytes
  pattern : Bytes
  handlerId : Int
  deriving Repr, DecidableEq

/-- `Router`. -/
structure FlatRouter where
  buf : Bytes
  segOff : List Int32
  segLen : List Int32
  segIsParam : List Bool
  rSegStart : List Int32
  rSegCount : List Int32
  rMethOff : List Int32
  rMethLen : List Int32
  rHandler : List Int32
  rParamCount : List Int32
  deriving Repr, DecidableEq

namespace FlatRouter

/-- `MatchResult`. -/
structure MatchResult where
  matched : Bool
  methodNotAllowed : Bool
  handlerId : Int
  params : List Bytes
  deriving Repr, DecidableEq

namespace MatchResult

/-- `MatchResult()`. -/
def miss : MatchResult := ⟨false, false, -1, []⟩

/-- `MatchResult(handler_id, params)`. -/
def found (handlerId : Int) (params : List Bytes) : MatchResult := ⟨true, false, handlerId, params⟩

/-- What `match` makes of a path that is there in other methods only. -/
def notAllowed : MatchResult := { miss with methodNotAllowed := true }

end MatchResult

/-- `Router()`. -/
def empty : FlatRouter := ⟨[], [], [], [], [], [], [], [], [], []⟩

/-- `Int(a[k])`. -/
def int (a : List Int32) (k : Nat) : Int := (a.getD k 0).toInt

/-! ## `add` -/

/-- One turn of the loop in `add`, of the segment `pb[start:i]`. -/
def addSegment (rt : FlatRouter) (pb : Bytes) (start i : Nat) : FlatRouter :=
  let isParam := pb.getD start 0 == COLON
  -- a `:name` segment stores only the name
  let textStart := if isParam then start + 1 else start
  { rt with
    buf := rt.buf ++ slice pb textStart i
    segOff := rt.segOff ++ [Int32.ofNat rt.buf.length]
    segLen := rt.segLen ++ [Int32.ofNat (i - textStart)]
    segIsParam := rt.segIsParam ++ [isParam] }

/-- The loop of `add` from `i` on, with its `count` and `params`. `turns` bounds the segments. -/
def addFrom (pb : Bytes) : (turns i : Nat) → FlatRouter → (count params : Nat) → FlatRouter × Nat × Nat
  | 0, _, rt, count, params => (rt, count, params)
  | turns + 1, i, rt, count, params =>
    let start := scanWhile (· == SLASH) pb i
    if start ≥ pb.length then (rt, count, params)
    else
      let i := scanWhile (· != SLASH) pb start
      addFrom pb turns i (rt.addSegment pb start i) (count + 1)
        (if pb.getD start 0 == COLON then params + 1 else params)

/-- The part of `add` in front of its loop. -/
def addMethod (rt : FlatRouter) (method : Bytes) : FlatRouter :=
  { rt with
    buf := rt.buf ++ method
    rMethOff := rt.rMethOff ++ [Int32.ofNat rt.buf.length]
    rMethLen := rt.rMethLen ++ [Int32.ofNat method.length]
    rSegStart := rt.rSegStart ++ [Int32.ofNat rt.segOff.length] }

/-- `add`. -/
def add (rt : FlatRouter) (method pattern : Bytes) (handlerId : Int) : FlatRouter :=
  let out := addFrom pattern pattern.length 0 (rt.addMethod method) 0 0
  { out.1 with
    rSegCount := out.1.rSegCount ++ [Int32.ofNat out.2.1]
    rHandler := out.1.rHandler ++ [Int32.ofInt handlerId]
    rParamCount := out.1.rParamCount ++ [Int32.ofNat out.2.2] }

/-- The table of a sequence of `add` calls. -/
def table (calls : List RouteCall) : FlatRouter :=
  calls.foldl (fun rt c => rt.add c.method c.pattern c.handlerId) empty

/-! ## The walks over a path -/

/-- `_segment_eq` and `_method_eq`: `l` bytes of the blob from `off` on are `probe`. -/
def bufEq (rt : FlatRouter) (off l : Int) (probe : Bytes) : Bool :=
  l == probe.length && (List.range l.toNat).all fun j => rt.buf.getD (off + j).toNat 0 == probe.getD j 0

/-- `_segment_eq`. -/
def segmentEq (rt : FlatRouter) (k : Nat) (probe : Bytes) : Bool :=
  rt.bufEq (int rt.segOff k) (int rt.segLen k) probe

/-- `_method_eq`. -/
def methodEq (rt : FlatRouter) (r : Nat) (probe : Bytes) : Bool :=
  rt.bufEq (int rt.rMethOff r) (int rt.rMethLen r) probe

/-- The loop of `_count_segments`. -/
def countFrom (pb : Bytes) : (turns i count : Nat) → Nat
  | 0, _, count => count
  | turns + 1, i, count =>
    let start := scanWhile (· == SLASH) pb i
    if start ≥ pb.length then count
    else countFrom pb turns (scanWhile (· != SLASH) pb start) (count + 1)

/-- `_count_segments`. -/
def countSegments (pb : Bytes) : Nat := countFrom pb pb.length 0 0

/-- The loop of `_path_matches` over the segments still to come, the pattern's from `k` on. -/
def pathMatchesFrom (rt : FlatRouter) (pb : Bytes) : (left k pos : Nat) → Bool
  | 0, _, _ => true
  | left + 1, k, pos =>
    let start := scanWhile (· == SLASH) pb pos
    let pos := scanWhile (· != SLASH) pb start
    if rt.segIsParam.getD k false then rt.pathMatchesFrom pb left (k + 1) pos
    else if !rt.segmentEq k (slice pb start pos) then false
    else rt.pathMatchesFrom pb left (k + 1) pos

/-- `_path_matches`. -/
def pathMatches (rt : FlatRouter) (r : Nat) (pb : Bytes) (reqCount : Nat) : Bool :=
  if int rt.rSegCount r != reqCount then false
  else rt.pathMatchesFrom pb reqCount (int rt.rSegStart r).toNat 0

/-- The loop of `_captured`. -/
def capturedFrom (rt : FlatRouter) (pb : Bytes) : (left k cpos : Nat) → (params : List Bytes) → List Bytes
  | 0, _, _, params => params
  | left + 1, k, cpos, params =>
    let start := scanWhile (· == SLASH) pb cpos
    let cpos := scanWhile (· != SLASH) pb start
    rt.capturedFrom pb left (k + 1) cpos
      (if rt.segIsParam.getD k false then params ++ [slice pb start cpos] else params)

/-- `_captured`. -/
def captured (rt : FlatRouter) (r : Nat) (pb : Bytes) (reqCount : Nat) : MatchResult :=
  .found (int rt.rHandler r) (rt.capturedFrom pb reqCount (int rt.rSegStart r).toNat 0 [])

/-- The loop of `match` over the routes still to come. -/
def matchFrom (rt : FlatRouter) (mb pb : Bytes) (reqCount : Nat) :
    List Nat → (pathMatched : Bool) → (getTwin : Option Nat) → MatchResult
  | [], pathMatched, getTwin =>
    match getTwin with
    | some r => rt.captured r pb reqCount
    | none => if pathMatched then .notAllowed else .miss
  | r :: rs, pathMatched, getTwin =>
    if !rt.pathMatches r pb reqCount then rt.matchFrom mb pb reqCount rs pathMatched getTwin
    else if !rt.methodEq r mb then
      let twin := if mb == ascii "HEAD" && getTwin.isNone && rt.methodEq r (ascii "GET")
        then some r else getTwin
      rt.matchFrom mb pb reqCount rs true twin
    else rt.captured r pb reqCount

/-- `match`. -/
def matchRoute (rt : FlatRouter) (method path : Bytes) : MatchResult :=
  rt.matchFrom method path (countSegments path) (List.range rt.rHandler.length) false none

end FlatRouter

/-! ## What a table says -/

/-- The pieces of a path between its slashes, the empty ones left out. -/
def pieces (path : Bytes) : List Bytes := (path.splitOn SLASH).filter fun seg => !seg.isEmpty

namespace RouteCall

def segments (c : RouteCall) : List PatternSegment := (pieces c.pattern).map patternSegment

end RouteCall

/-- The first route of the method whose pieces match the path's, one for one; for a HEAD without a route of its
own the first GET one. -/
def firstMatch (calls : List RouteCall) (method path : Bytes) : FlatRouter.MatchResult :=
  match firstTaking RouteCall.method RouteCall.segments method (pieces path) calls with
  | some c => .found c.handlerId (captures c.segments (pieces path))
  | none => if calls.any fun c => takes c.segments (pieces path) then .notAllowed else .miss

/-- What 32 bits can hold: the bytes of all methods and patterns, and each handler id. -/
def Fits (calls : List RouteCall) : Prop :=
  (calls.map fun c => c.method.length + c.pattern.length).sum < 2 ^ 31 ∧
    ∀ c ∈ calls, -2 ^ 31 ≤ c.handlerId ∧ c.handlerId < 2 ^ 31

/-! ## The segments of a path are its pieces -/

theorem take_takeWhile (p : UInt8 → Bool) (t : Bytes) : t.take (t.takeWhile p).length = t.takeWhile p :=
  (List.prefix_iff_eq_take.mp (List.takeWhile_prefix p)).symm

theorem drop_takeWhile (p : UInt8 → Bool) (t : Bytes) : t.drop (t.takeWhile p).length = t.dropWhile p := by
  have hboth := List.take_append_drop (t.takeWhile p).length t
  rw [take_takeWhile] at hboth
  exact List.append_cancel_left (hboth.trans List.takeWhile_append_dropWhile.symm)

theorem drop_scanWhile (p : UInt8 → Bool) (pb : Bytes) (pos : Nat) :
    pb.drop (scanWhile p pb pos) = (pb.drop pos).dropWhile p := by
  rw [scanWhile, ← List.drop_drop, drop_takeWhile]

theorem slice_scanWhile (p : UInt8 → Bool) (pb : Bytes) (pos : Nat) :
    slice pb pos (scanWhile p pb pos) = (pb.drop pos).takeWhile p := by
  rw [slice, scanWhile, Nat.add_sub_cancel_left, take_takeWhile]

/-- Where the skip over the slashes stands in front of the end, it stands in front of a segment. -/
theorem scanWhile_lt_scanWhile {pb : Bytes} {pos : Nat} (h : scanWhile (· == SLASH) pb pos < pb.length) :
    pb.getD (scanWhile (· == SLASH) pb pos) 0 ≠ SLASH ∧
      scanWhile (· == SLASH) pb pos < scanWhile (· != SLASH) pb (scanWhile (· == SLASH) pb pos) := by
  have hdrop := drop_scanWhile (· == SLASH) pb pos
  set start := scanWhile (· == SLASH) pb pos
  rw [List.drop_eq_getElem_cons h] at hdrop
  have hnot : pb[start] ≠ SLASH := by
    intro hslash
    have hhead := List.head?_dropWhile_not (· == SLASH) (pb.drop pos)
    rw [← hdrop, List.head?_cons, hslash] at hhead
    simp at hhead
  refine ⟨by rwa [List.getD_eq_getElem _ _ h], ?_⟩
  have hfirst : (pb[start] != SLASH) = true := bne_iff_ne.mpr hnot
  rw [scanWhile, List.drop_eq_getElem_cons h, List.takeWhile_cons, hfirst, if_pos rfl, List.length_cons]
  omega

theorem pieces_nil : pieces [] = [] := rfl

theorem pieces_slash (t : Bytes) : pieces (SLASH :: t) = pieces t := by
  rw [pieces, List.splitOn_eq_splitOnP, List.splitOnP_cons_eq_if_modifyHead]
  rfl

theorem pieces_dropWhile (t : Bytes) : pieces (t.dropWhile (· == SLASH)) = pieces t := by
  induction t with
  | nil => rfl
  | cons c t ih =>
    rw [List.dropWhile_cons]
    split
    · next hc => rw [ih, beq_iff_eq.mp hc, pieces_slash]
    · rfl

/-- **A piece and what stands behind it.** -/
theorem pieces_piece {w : Bytes} (hne : w ≠ []) (hw : ∀ c ∈ w, (c == SLASH) = false) {t : Bytes}
    (ht : t = [] ∨ t.head? = some SLASH) : pieces (w ++ t) = w :: pieces t := by
  have hkeep : ∀ segs : List Bytes, ((w :: segs).filter fun seg => !seg.isEmpty) =
      w :: segs.filter fun seg => !seg.isEmpty := by
    intro segs
    exact List.filter_cons_of_pos (by simpa using hne)
  rcases ht with rfl | ht
  · rw [List.append_nil, pieces, List.splitOn_eq_splitOnP, List.splitOnP_eq_singleton hw, hkeep]
    rfl
  · cases t with
    | nil => cases ht
    | cons c t =>
      obtain rfl : c = SLASH := Option.some.inj ht
      rw [pieces_slash, pieces, List.splitOn_eq_splitOnP,
        List.splitOnP_append_cons_of_forall_mem hw SLASH (beq_self_eq_true _), hkeep, pieces, List.splitOn_eq_splitOnP]

theorem segmentsFrom_eq_pieces {pb : Bytes} {turns pos : Nat} (h : pb.length ≤ pos + turns) :
    segmentsFrom pb turns pos = pieces (pb.drop pos) := by
  induction turns generalizing pos with
  | zero =>
    rw [List.drop_eq_nil_of_le (by omega), pieces_nil]
    rfl
  | succ turns ih =>
    rw [segmentsFrom]
    dsimp only
    rw [← pieces_dropWhile (pb.drop pos), ← drop_scanWhile]
    split
    · next hend => rw [List.drop_eq_nil_of_le hend, pieces_nil]
    · next hin =>
      rw [not_le] at hin
      obtain ⟨-, hlt⟩ := scanWhile_lt_scanWhile hin
      have hpos : pos ≤ scanWhile (· == SLASH) pb pos := Nat.le_add_right _ _
      set start := scanWhile (· == SLASH) pb pos
      have hsplit : pb.drop start = slice pb start (scanWhile (· != SLASH) pb start) ++
          pb.drop (scanWhile (· != SLASH) pb start) := by
        rw [slice_scanWhile, drop_scanWhile (· != SLASH), List.takeWhile_append_dropWhile]
      rw [ih (by omega), hsplit, pieces_piece]
      · rw [← List.length_pos_iff, slice_scanWhile]
        rw [scanWhile] at hlt
        omega
      · intro c hc
        rw [slice_scanWhile] at hc
        simpa using List.mem_takeWhile_imp hc
      · rw [drop_scanWhile]
        have hhead := List.head?_dropWhile_not (· != SLASH) (pb.drop start)
        cases hrest : (pb.drop start).dropWhile (· != SLASH) with
        | nil => exact Or.inl rfl
        | cons c t =>
          rw [hrest] at hhead
          simp only [List.head?_cons] at hhead
          exact Or.inr (congrArg some (by simpa using hhead))

/-- **The walk finds the pieces**, whatever runs of slashes stand between them. -/
theorem segments_eq_pieces (path : Bytes) : segments path = pieces path :=
  @segmentsFrom_eq_pieces path path.length 0 (by omega)

namespace FlatRouter

/-! ## The arrays refine those of `Router` -/

/-- The segment arrays hold the same numbers, 32 bits wide. -/
structure RefinesSegs (rt : FlatRouter) (abs : Router) : Prop where
  buf : rt.buf = abs.buf
  segOff : rt.segOff = abs.segOff.map Int32.ofNat
  segLen : rt.segLen = abs.segLen.map Int32.ofNat
  segIsParam : rt.segIsParam = abs.segIsParam

/-- So do the route arrays; `ids` are the handler ids, of which `Router` has the numbers. -/
structure Refines (rt : FlatRouter) (abs : Router) (ids : List Int) : Prop extends rt.RefinesSegs abs where
  rSegStart : rt.rSegStart = abs.rSegStart.map Int32.ofNat
  rSegCount : rt.rSegCount = abs.rSegCount.map Int32.ofNat
  rMethOff : rt.rMethOff = abs.rMethOff.map Int32.ofNat
  rMethLen : rt.rMethLen = abs.rMethLen.map Int32.ofNat
  rHandler : rt.rHandler = ids.map Int32.ofInt
  numbers : abs.rHandler = List.range ids.length

theorem refines_empty : empty.Refines Router.empty [] := by
  constructor
  · constructor
    all_goals rfl
  all_goals rfl

theorem map_snoc (a : List Nat) (n : Nat) : (a ++ [n]).map Int32.ofNat = a.map Int32.ofNat ++ [Int32.ofNat n] := by
  rw [List.map_append, List.map_singleton]

/-- A segment of the pattern, as `add` cuts it and as the walk names it. -/
theorem patternSegment_slice {pb : Bytes} {start stop : Nat} (h : start < stop) (hin : start < pb.length) :
    patternSegment (slice pb start stop) =
      ⟨pb.getD start 0 == COLON, slice pb (if pb.getD start 0 == COLON then start + 1 else start) stop⟩ := by
  have hfirst : (slice pb start stop).getD 0 0 = pb.getD start 0 := by
    rw [slice, List.drop_eq_getElem_cons hin, show stop - start = (stop - start - 1) + 1 by omega,
      List.take_succ_cons, List.getD_cons_zero, List.getD_eq_getElem _ _ hin]
  have hrest : (slice pb start stop).drop 1 = slice pb (start + 1) stop := by
    rw [slice, slice, List.drop_take, List.drop_drop, show stop - start - 1 = stop - (start + 1) by omega]
  rw [patternSegment, hfirst, hrest]
  split
  · rfl
  · rfl

theorem RefinesSegs.addSegment {rt : FlatRouter} {abs : Router} (h : rt.RefinesSegs abs) {pb : Bytes}
    {start stop : Nat} (hlt : start < stop) (hin : stop ≤ pb.length) :
    (rt.addSegment pb start stop).RefinesSegs (abs.addSegment (patternSegment (slice pb start stop))) := by
  rw [patternSegment_slice hlt (by omega)]
  have hlen : ∀ a, (slice pb a stop).length = stop - a := by
    intro a
    rw [length_slice]
    omega
  constructor
  · show rt.buf ++ _ = abs.buf ++ _
    rw [h.buf]
  · show rt.segOff ++ _ = (abs.segOff ++ _).map _
    rw [map_snoc, h.segOff, h.buf]
  · show rt.segLen ++ _ = (abs.segLen ++ _).map _
    rw [map_snoc, h.segLen, hlen]
  · show rt.segIsParam ++ _ = abs.segIsParam ++ _
    rw [h.segIsParam]

/-- The loop of `add` fills the arrays, and leaves those of the routes. -/
theorem addFrom_spec (pb : Bytes) (turns i : Nat) {rt : FlatRouter} {abs : Router} (h : rt.RefinesSegs abs)
    (count params : Nat) :
    let out := addFrom pb turns i rt count params
    out.1.RefinesSegs (((segmentsFrom pb turns i).map patternSegment).foldl Router.addSegment abs) ∧
      out.2.1 = count + (segmentsFrom pb turns i).length ∧
      (out.1.rSegStart, out.1.rSegCount, out.1.rMethOff, out.1.rMethLen, out.1.rHandler) =
        (rt.rSegStart, rt.rSegCount, rt.rMethOff, rt.rMethLen, rt.rHandler) := by
  induction turns generalizing i rt abs count params with
  | zero => exact ⟨h, rfl, rfl⟩
  | succ turns ih =>
    dsimp only
    rw [addFrom, segmentsFrom]
    dsimp only
    by_cases hend : scanWhile (· == SLASH) pb i ≥ pb.length
    · rw [if_pos hend, if_pos hend]
      exact ⟨h, rfl, rfl⟩
    · rw [if_neg hend, if_neg hend]
      obtain ⟨-, hlt⟩ := scanWhile_lt_scanWhile (not_le.mp hend)
      have hin : scanWhile (· != SLASH) pb (scanWhile (· == SLASH) pb i) ≤ pb.length := by
        have hle := (List.takeWhile_sublist (· != SLASH) (l := pb.drop (scanWhile (· == SLASH) pb i))).length_le
        rw [List.length_drop] at hle
        rw [not_le] at hend
        show scanWhile (· == SLASH) pb i + _ ≤ _
        omega
      obtain ⟨hsegs, hcount, harrays⟩ := ih (scanWhile (· != SLASH) pb (scanWhile (· == SLASH) pb i))
        (h.addSegment hlt hin) (count + 1)
        (if pb.getD (scanWhile (· == SLASH) pb i) 0 == COLON then params + 1 else params)
      refine ⟨hsegs, ?_, harrays⟩
      rw [hcount, List.length_cons]
      omega

/-- **`add` keeps the arrays together.** -/
theorem Refines.add {rt : FlatRouter} {abs : Router} {ids : List Int} (h : rt.Refines abs ids) (hb : abs.Built)
    (method pattern : Bytes) (id : Int) :
    (rt.add method pattern id).Refines (abs.add method pattern ids.length) (ids ++ [id]) := by
  have hmethod : (rt.addMethod method).RefinesSegs (abs.addMethod method) := by
    constructor
    · show rt.buf ++ _ = abs.buf ++ _
      rw [h.buf]
    · exact h.segOff
    · exact h.segLen
    · exact h.segIsParam
  obtain ⟨hsegs, hcount, harrays⟩ := addFrom_spec pattern pattern.length 0 hmethod 0 0
  obtain ⟨hstart, harrays⟩ := Prod.mk.inj harrays
  obtain ⟨hcounts, harrays⟩ := Prod.mk.inj harrays
  obtain ⟨hoff, harrays⟩ := Prod.mk.inj harrays
  obtain ⟨hlen, hhandler⟩ := Prod.mk.inj harrays
  have ⟨habsStart, habsCount, habsOff, habsLen, habsHandler⟩ := Router.add_arrays hb method pattern ids.length
  constructor
  · exact ⟨hsegs.buf, hsegs.segOff, hsegs.segLen, hsegs.segIsParam⟩
  · show (addFrom pattern pattern.length 0 (rt.addMethod method) 0 0).1.rSegStart = _
    rw [hstart, habsStart, map_snoc, ← h.rSegStart]
    show _ ++ [Int32.ofNat rt.segOff.length] = _
    rw [h.segOff, List.length_map]
  · show (addFrom pattern pattern.length 0 (rt.addMethod method) 0 0).1.rSegCount ++ _ = _
    rw [hcounts, habsCount, map_snoc, ← h.rSegCount, hcount, Nat.zero_add]
    rfl
  · show (addFrom pattern pattern.length 0 (rt.addMethod method) 0 0).1.rMethOff = _
    rw [hoff, habsOff, map_snoc, ← h.rMethOff, ← h.buf]
    rfl
  · show (addFrom pattern pattern.length 0 (rt.addMethod method) 0 0).1.rMethLen = _
    rw [hlen, habsLen, map_snoc, ← h.rMethLen]
    rfl
  · show (addFrom pattern pattern.length 0 (rt.addMethod method) 0 0).1.rHandler ++ _ = _
    rw [hhandler, List.map_append, List.map_singleton, ← h.rHandler]
    rfl
  · rw [habsHandler, h.numbers, List.length_append, List.length_singleton, List.range_succ]

/-! ## A table that 32 bits can hold -/

/-- The numbers of a table that are below `n`. -/
structure Below (abs : Router) (n : Nat) : Prop where
  segOff : ∀ x ∈ abs.segOff, x < n
  segLen : ∀ x ∈ abs.segLen, x < n
  rSegStart : ∀ x ∈ abs.rSegStart, x < n
  rSegCount : ∀ x ∈ abs.rSegCount, x < n
  rMethOff : ∀ x ∈ abs.rMethOff, x < n
  rMethLen : ∀ x ∈ abs.rMethLen, x < n

/-- A number below `2 ^ 31` is read as it was written. -/
theorem int_map {a : List Nat} (h : ∀ x ∈ a, x < 2 ^ 31) (k : Nat) : int (a.map Int32.ofNat) k = (a.getD k 0 : Nat) := by
  rw [int, List.getD_eq_getElem?_getD, List.getElem?_map, List.getD_eq_getElem?_getD]
  cases hk : a[k]? with
  | none => rfl
  | some x => exact Int32.toInt_ofNat_of_lt (h x (List.mem_of_getElem? hk))

section

variable {rt : FlatRouter} {abs : Router} {ids : List Int}

theorem bufEq_eq (hbuf : rt.buf = abs.buf) (off l : Nat) (probe : Bytes) :
    rt.bufEq off l probe = abs.bufEq off l probe := by
  have hlen : ((l : Int) == (probe.length : Int)) = (l == probe.length) := by
    rw [Bool.eq_iff_iff, beq_iff_eq, beq_iff_eq, Int.natCast_inj]
  rw [bufEq, Router.bufEq, hlen, hbuf]
  rfl

theorem Refines.segmentEq (h : rt.Refines abs ids) (hbelow : Below abs (2 ^ 31)) (k : Nat) (probe : Bytes) :
    rt.segmentEq k probe = abs.segmentEq k probe := by
  rw [FlatRouter.segmentEq, h.segOff, h.segLen, int_map hbelow.segOff, int_map hbelow.segLen, bufEq_eq h.buf]
  rfl

theorem Refines.methodEq (h : rt.Refines abs ids) (hbelow : Below abs (2 ^ 31)) (r : Nat) (probe : Bytes) :
    rt.methodEq r probe = abs.methodEq r probe := by
  rw [FlatRouter.methodEq, h.rMethOff, h.rMethLen, int_map hbelow.rMethOff, int_map hbelow.rMethLen, bufEq_eq h.buf]
  rfl

/-! ## The three walks are one -/

theorem countFrom_eq (pb : Bytes) (turns i count : Nat) :
    countFrom pb turns i count = count + (segmentsFrom pb turns i).length := by
  induction turns generalizing i count with
  | zero => rfl
  | succ turns ih =>
    rw [countFrom, segmentsFrom]
    dsimp only
    split
    · rfl
    · rw [ih, List.length_cons]
      omega

theorem countSegments_eq (pb : Bytes) : countSegments pb = (segments pb).length := by
  rw [countSegments, countFrom_eq, Nat.zero_add]
  rfl

/-- The comparing walk meets the segments the counting walk counted. -/
theorem Refines.pathMatchesFrom (h : rt.Refines abs ids) (hbelow : Below abs (2 ^ 31)) (pb : Bytes)
    (turns k pos : Nat) :
    rt.pathMatchesFrom pb (segmentsFrom pb turns pos).length k pos =
      abs.pathMatchesFrom (segmentsFrom pb turns pos) k := by
  induction turns generalizing k pos with
  | zero => rfl
  | succ turns ih =>
    rw [segmentsFrom]
    dsimp only
    split
    · rfl
    · rw [List.length_cons, FlatRouter.pathMatchesFrom, Router.pathMatchesFrom, ih, h.segmentEq hbelow, h.segIsParam]
      cases abs.segIsParam.getD k false with
      | true => rfl
      | false =>
        rw [if_neg Bool.false_ne_true, Bool.false_or]
        cases abs.segmentEq k (slice pb (scanWhile (· == SLASH) pb pos)
          (scanWhile (· != SLASH) pb (scanWhile (· == SLASH) pb pos))) with
        | true => rfl
        | false => rfl

/-- So does the capturing one. -/
theorem Refines.capturedFrom (h : rt.Refines abs ids) (pb : Bytes) (turns k pos : Nat) (params : List Bytes) :
    rt.capturedFrom pb (segmentsFrom pb turns pos).length k pos params =
      params ++ abs.capturedFrom (segmentsFrom pb turns pos) k := by
  induction turns generalizing k pos params with
  | zero => exact (List.append_nil _).symm
  | succ turns ih =>
    rw [segmentsFrom]
    dsimp only
    split
    · exact (List.append_nil _).symm
    · rw [List.length_cons, FlatRouter.capturedFrom, Router.capturedFrom, ih, h.segIsParam]
      split
      · rw [List.append_assoc, List.singleton_append]
      · rfl

theorem Refines.pathMatches (h : rt.Refines abs ids) (hbelow : Below abs (2 ^ 31)) (r : Nat) (pb : Bytes) :
    rt.pathMatches r pb (countSegments pb) = abs.pathMatches r (segments pb) := by
  have hcount : ((abs.rSegCount.getD r 0 : Nat) != ((segments pb).length : Int)) =
      !(abs.rSegCount.getD r 0 == (segments pb).length) := by
    rw [bne]
    congr 1
    rw [Bool.eq_iff_iff, beq_iff_eq, beq_iff_eq, Int.natCast_inj]
  rw [FlatRouter.pathMatches, h.rSegCount, h.rSegStart, int_map hbelow.rSegCount, int_map hbelow.rSegStart,
    countSegments_eq, hcount, Router.pathMatches, Int.toNat_natCast]
  cases abs.rSegCount.getD r 0 == (segments pb).length with
  | false => rfl
  | true =>
    rw [Bool.not_true, if_neg Bool.false_ne_true, Bool.true_and]
    exact h.pathMatchesFrom hbelow pb pb.length _ 0

/-- A result of `Router.match`, its handler read back. -/
def read (ids : List Int) : MojoHttp.MatchResult → MatchResult
  | .found r params => .found (ids.getD r 0) params
  | .methodNotAllowed => .notAllowed
  | .notFound => .miss

theorem Refines.captured (h : rt.Refines abs ids) (hbelow : Below abs (2 ^ 31))
    (hids : ∀ id ∈ ids, -2 ^ 31 ≤ id ∧ id < 2 ^ 31) {r : Nat} (hr : r < ids.length) (pb : Bytes) :
    rt.captured r pb (countSegments pb) = read ids (abs.captured r (segments pb)) := by
  have hid : int rt.rHandler r = ids.getD r 0 := by
    rw [int, h.rHandler, List.getD_eq_getElem?_getD, List.getElem?_map, List.getElem?_eq_getElem hr,
      List.getD_eq_getElem _ _ hr]
    have ⟨hlo, hhi⟩ := hids _ (List.getElem_mem hr)
    exact Int32.toInt_ofInt_of_le hlo hhi
  have hnumber : abs.rHandler.getD r 0 = r := by
    rw [h.numbers, List.getD_eq_getElem _ _ (by rwa [List.length_range]), List.getElem_range]
  rw [FlatRouter.captured, hid, h.rSegStart, int_map hbelow.rSegStart, Int.toNat_natCast, countSegments_eq,
    Router.captured, hnumber]
  exact congrArg (MatchResult.found _) (h.capturedFrom pb pb.length _ 0 [])

theorem Refines.matchFrom (h : rt.Refines abs ids) (hbelow : Below abs (2 ^ 31))
    (hids : ∀ id ∈ ids, -2 ^ 31 ≤ id ∧ id < 2 ^ 31) (mb pb : Bytes) (rs : List Nat) (hrs : ∀ r ∈ rs, r < ids.length)
    (pathMatched : Bool) (getTwin : Option Nat) (htwin : ∀ r ∈ getTwin, r < ids.length) :
    rt.matchFrom mb pb (countSegments pb) rs pathMatched getTwin =
      read ids (abs.matchFrom mb (segments pb) rs pathMatched getTwin) := by
  induction rs generalizing pathMatched getTwin with
  | nil =>
    cases getTwin with
    | some r => exact h.captured hbelow hids (htwin r rfl) pb
    | none =>
      cases pathMatched with
      | true => rfl
      | false => rfl
  | cons r rs ih =>
    have hr := hrs r List.mem_cons_self
    have hrest := fun x hx => hrs x (List.mem_cons_of_mem r hx)
    rw [FlatRouter.matchFrom, Router.matchFrom, h.pathMatches hbelow, h.methodEq hbelow, h.methodEq hbelow]
    split
    · exact ih hrest pathMatched getTwin htwin
    · split
      · refine ih hrest true _ ?_
        intro x hx
        split at hx
        · exact (Option.some.inj hx) ▸ hr
        · exact htwin x hx
      · exact h.captured hbelow hids hr pb

/-- **`match` over the arrays is `Router.match`.** -/
theorem Refines.matchRoute (h : rt.Refines abs ids) (hbelow : Below abs (2 ^ 31))
    (hids : ∀ id ∈ ids, -2 ^ 31 ≤ id ∧ id < 2 ^ 31) (method path : Bytes) :
    rt.matchRoute method path = read ids (abs.matchRoute method path) := by
  have hlen : rt.rHandler.length = abs.rHandler.length := by
    rw [h.rHandler, h.numbers, List.length_map, List.length_range]
  rw [FlatRouter.matchRoute, Router.matchRoute, hlen]
  refine h.matchFrom hbelow hids method path _ ?_ false none (fun r hr => absurd hr (Option.not_mem_none r))
  intro r hr
  rwa [h.numbers, List.length_range, List.mem_range] at hr

end

/-! ## The table of a sequence of calls -/

/-- The segments of a path are no longer than it. -/
theorem sum_segmentsFrom (pb : Bytes) (turns pos : Nat) :
    ((segmentsFrom pb turns pos).map List.length).sum ≤ pb.length - pos := by
  induction turns generalizing pos with
  | zero => exact Nat.zero_le _
  | succ turns ih =>
    rw [segmentsFrom]
    dsimp only
    split
    · exact Nat.zero_le _
    · next hin =>
      obtain ⟨-, hlt⟩ := scanWhile_lt_scanWhile (not_le.mp hin)
      have hpos : pos ≤ scanWhile (· == SLASH) pb pos := Nat.le_add_right _ _
      have hrest := ih (scanWhile (· != SLASH) pb (scanWhile (· == SLASH) pb pos))
      rw [List.map_cons, List.sum_cons, length_slice]
      omega

/-- Each of them has a byte at the least. -/
theorem length_segmentsFrom_le (pb : Bytes) (turns pos : Nat) :
    (segmentsFrom pb turns pos).length ≤ pb.length - pos := by
  induction turns generalizing pos with
  | zero => exact Nat.zero_le _
  | succ turns ih =>
    rw [segmentsFrom]
    dsimp only
    split
    · exact Nat.zero_le _
    · next hin =>
      obtain ⟨-, hlt⟩ := scanWhile_lt_scanWhile (not_le.mp hin)
      have hpos : pos ≤ scanWhile (· == SLASH) pb pos := Nat.le_add_right _ _
      have hrest := ih (scanWhile (· != SLASH) pb (scanWhile (· == SLASH) pb pos))
      rw [List.length_cons]
      omega

theorem length_buf_foldl (segs : List PatternSegment) (abs : Router) :
    (segs.foldl Router.addSegment abs).buf.length = abs.buf.length + (segs.map fun seg => seg.text.length).sum := by
  induction segs generalizing abs with
  | nil => rfl
  | cons seg segs ih =>
    rw [List.foldl_cons, ih, List.map_cons, List.sum_cons, ← Nat.add_assoc]
    congr 1
    exact List.length_append

theorem length_buf_add (abs : Router) (method pattern : Bytes) (id : Nat) :
    (abs.add method pattern id).buf.length ≤ abs.buf.length + (method.length + pattern.length) := by
  have htext : ∀ segs : List Bytes, ((segs.map patternSegment).map fun seg => seg.text.length).sum ≤
      (segs.map List.length).sum := by
    intro segs
    induction segs with
    | nil => exact le_refl _
    | cons seg segs ih =>
      have hseg : (patternSegment seg).text.length ≤ seg.length := by
        show (if seg.getD 0 0 == COLON then seg.drop 1 else seg).length ≤ seg.length
        split
        · rw [List.length_drop]
          omega
        · exact le_refl _
      rw [List.map_cons, List.map_cons, List.map_cons, List.sum_cons, List.sum_cons]
      omega
  have hsum := (htext (segments pattern)).trans (sum_segmentsFrom pattern pattern.length 0)
  show (((segments pattern).map patternSegment).foldl Router.addSegment (abs.addMethod method)).buf.length ≤ _
  rw [length_buf_foldl]
  show (abs.buf ++ method).length + _ ≤ _
  rw [List.length_append]
  omega

/-- What a table holds of its calls: `abs` has their routes, numbered, in no more bytes than theirs. -/
structure Tabled (calls : List RouteCall) (rt : FlatRouter) (abs : Router) : Prop where
  refines : rt.Refines abs (calls.map RouteCall.handlerId)
  built : abs.Built
  routes : abs.routes = calls.zipIdx.map fun p => Router.newRoute p.1.method p.1.pattern p.2
  buf : abs.buf.length ≤ (calls.map fun c => c.method.length + c.pattern.length).sum
  segs : abs.segOff.length ≤ (calls.map fun c => c.method.length + c.pattern.length).sum

theorem Tabled.add {calls : List RouteCall} {rt : FlatRouter} {abs : Router} (h : Tabled calls rt abs)
    (c : RouteCall) :
    Tabled (calls ++ [c]) (rt.add c.method c.pattern c.handlerId) (abs.add c.method c.pattern calls.length) := by
  have hrefines := h.refines.add h.built c.method c.pattern c.handlerId
  rw [List.length_map] at hrefines
  constructor
  · rw [List.map_append, List.map_singleton]
    exact hrefines
  · exact Router.built_add h.built _ _ _
  · rw [h.built.routes_add, h.routes, List.zipIdx_append, List.map_append, List.zipIdx_singleton, Nat.zero_add]
    rfl
  · have hadd := length_buf_add abs c.method c.pattern calls.length
    have hbuf := h.buf
    rw [List.map_append, List.sum_append, List.map_singleton, List.sum_singleton]
    omega
  · have hpattern := length_segmentsFrom_le c.pattern c.pattern.length 0
    have hsegs := h.segs
    rw [Router.length_add h.built, List.map_append, List.sum_append, List.map_singleton, List.sum_singleton]
    show _ + (segmentsFrom c.pattern c.pattern.length 0).length ≤ _
    omega

theorem tabled (calls : List RouteCall) : ∃ abs, Tabled calls (table calls) abs := by
  induction calls using List.reverseRecOn with
  | nil => exact ⟨Router.empty, refines_empty, Router.built_empty, rfl, le_refl _, le_refl _⟩
  | append_singleton calls c ih =>
    obtain ⟨abs, h⟩ := ih
    refine ⟨abs.add c.method c.pattern calls.length, ?_⟩
    rw [table, List.foldl_concat]
    exact h.add c

theorem mem_getD {a : List Nat} {x : Nat} (hx : x ∈ a) : ∃ k < a.length, a.getD k 0 = x := by
  obtain ⟨k, hk, rfl⟩ := List.mem_iff_getElem.mp hx
  exact ⟨k, hk, List.getD_eq_getElem _ _ hk⟩

theorem Tabled.below {calls : List RouteCall} {rt : FlatRouter} {abs : Router} (h : Tabled calls rt abs)
    (hfits : (calls.map fun c => c.method.length + c.pattern.length).sum < 2 ^ 31) : Below abs (2 ^ 31) := by
  have hb := h.built
  have hbuf := h.buf
  have hsegs := h.segs
  constructor
  · intro x hx
    obtain ⟨k, hk, rfl⟩ := mem_getD hx
    have := hb.inBlob k hk
    omega
  · intro x hx
    obtain ⟨k, hk, rfl⟩ := mem_getD hx
    have := hb.inBlob k (by rw [← hb.segLen]; exact hk)
    omega
  · intro x hx
    obtain ⟨k, hk, rfl⟩ := mem_getD hx
    have := hb.inArrays k (by rw [← hb.rSegStart]; exact hk)
    omega
  · intro x hx
    obtain ⟨k, hk, rfl⟩ := mem_getD hx
    have := hb.inArrays k (by rw [← hb.rSegCount]; exact hk)
    omega
  · intro x hx
    obtain ⟨k, hk, rfl⟩ := mem_getD hx
    have := hb.methodInBlob k (by rw [← hb.rMethOff]; exact hk)
    omega
  · intro x hx
    obtain ⟨k, hk, rfl⟩ := mem_getD hx
    have := hb.methodInBlob k (by rw [← hb.rMethLen]; exact hk)
    omega

/-- The numbered routes answer as the calls do. -/
theorem Tabled.read_match {calls : List RouteCall} {rt : FlatRouter} {abs : Router} (h : Tabled calls rt abs)
    (method path : Bytes) :
    read (calls.map RouteCall.handlerId) (abs.matchRoute method path) = firstMatch calls method path := by
  have hsegs : ∀ c : RouteCall, (segments c.pattern).map patternSegment = c.segments := by
    intro c
    rw [segments_eq_pieces, RouteCall.segments]
  have hpattern : (fun p : RouteCall × Nat => (Router.newRoute p.1.method p.1.pattern p.2).pattern) =
      RouteCall.segments ∘ Prod.fst := funext fun p => hsegs p.1
  have hroute : firstTaking Route.method Route.pattern method (pieces path) abs.routes =
      (firstTaking (RouteCall.method ∘ Prod.fst) (RouteCall.segments ∘ Prod.fst) method (pieces path)
        calls.zipIdx).map fun p => Router.newRoute p.1.method p.1.pattern p.2 := by
    rw [h.routes, firstTaking_map]
    congr 2
  have hcall : firstTaking RouteCall.method RouteCall.segments method (pieces path) calls =
      (firstTaking (RouteCall.method ∘ Prod.fst) (RouteCall.segments ∘ Prod.fst) method (pieces path)
        calls.zipIdx).map Prod.fst := by
    rw [← firstTaking_map, List.zipIdx_map_fst]
  have hany : (abs.routes.any fun r => takes r.pattern (pieces path)) =
      calls.any fun c => takes c.segments (pieces path) := by
    rw [h.routes, List.any_map]
    conv_rhs => rw [← List.zipIdx_map_fst 0 calls, List.any_map]
    exact congrArg (fun f => calls.zipIdx.any f)
      (funext fun p => congrArg (fun segs => takes segs (pieces path)) (hsegs p.1))
  rw [h.built.match_eq, segments_eq_pieces, hroute, firstMatch, hcall, hany]
  cases hp : firstTaking (RouteCall.method ∘ Prod.fst) (RouteCall.segments ∘ Prod.fst) method (pieces path)
      calls.zipIdx with
  | none =>
    rw [Option.map_none, Option.map_none]
    dsimp only
    split
    · rfl
    · rfl
  | some p =>
    have hat := List.mem_zipIdx_iff_getElem?.mp (mem_of_firstTaking hp)
    have hid : (calls.map RouteCall.handlerId).getD p.2 0 = p.1.handlerId := by
      rw [List.getD_eq_getElem?_getD, List.getElem?_map, hat]
      rfl
    rw [Option.map_some, Option.map_some]
    show MatchResult.found ((calls.map RouteCall.handlerId).getD p.2 0)
      (captures ((segments p.1.pattern).map patternSegment) (pieces path)) = _
    rw [hid, hsegs]

/-- **The flat router is a first-match router**: over the table of any calls that 32 bits can hold, `match` answers as
`firstMatch` does on the pieces of patterns and path. -/
theorem match_eq_firstMatch (calls : List RouteCall) (hfits : Fits calls) (method path : Bytes) :
    (table calls).matchRoute method path = firstMatch calls method path := by
  obtain ⟨abs, h⟩ := tabled calls
  rw [h.refines.matchRoute (h.below hfits.1) ?_ method path, h.read_match]
  intro id hid
  obtain ⟨c, hc, rfl⟩ := List.mem_map.mp hid
  exact hfits.2 c hc

/-- A table of two routes holds, and the second answers. -/
theorem match_eq_firstMatch_note :
    (table [⟨ascii "POST", ascii "/notes", 1⟩, ⟨ascii "GET", ascii "//notes/:id/", 2⟩]).matchRoute
        (ascii "HEAD") (ascii "/notes//7") =
      firstMatch [⟨ascii "POST", ascii "/notes", 1⟩, ⟨ascii "GET", ascii "//notes/:id/", 2⟩]
        (ascii "HEAD") (ascii "/notes//7") :=
  match_eq_firstMatch _ ⟨by decide, by decide⟩ _ _

section

variable {rest : Bytes}

theorem pieces_one (hslash : ∀ b ∈ rest, (b == SLASH) = false) :
    pieces (SLASH :: 0x61 :: rest) = [0x61 :: rest] := by
  have hpiece := pieces_piece (List.cons_ne_nil 0x61 rest) (List.forall_mem_cons.mpr ⟨rfl, hslash⟩) (t := []) (Or.inl rfl)
  rw [List.append_nil] at hpiece
  rw [pieces_slash, hpiece, pieces_nil]

/-- The arrays of a table of one static segment. -/
theorem refines_one (hslash : ∀ b ∈ rest, (b == SLASH) = false) :
    (table [⟨ascii "GET", SLASH :: 0x61 :: rest, 0⟩]).Refines
      ⟨ascii "GET" ++ 0x61 :: rest, [3], [rest.length + 1], [false], [0], [1], [0], [3], [0]⟩ [0] := by
  have hrefines := refines_empty.add Router.built_empty (ascii "GET") (SLASH :: 0x61 :: rest) 0
  have habs : Router.empty.add (ascii "GET") (SLASH :: 0x61 :: rest) 0 =
      ⟨ascii "GET" ++ 0x61 :: rest, [3], [rest.length + 1], [false], [0], [1], [0], [3], [0]⟩ := by
    rw [Router.add, segments_eq_pieces, pieces_one hslash]
    rfl
  rw [List.length_nil, habs, List.nil_append] at hrefines
  rw [table, List.foldl_cons, List.foldl_nil]
  exact hrefines

/-- Those arrays, where the length is written 1, take a segment of one byte. -/
theorem match_one (rest : Bytes) (paramCounts : List Int32) :
    matchRoute ⟨ascii "GET" ++ 0x61 :: rest, [3], [1], [false], [0], [1], [0], [3], [0], paramCounts⟩
      (ascii "GET") (ascii "/a") = .found 0 [] := rfl

/-- A segment whose length wraps to 1 is compared by its first byte alone. -/
theorem match_ne_of_wraps (hslash : ∀ b ∈ rest, (b == SLASH) = false) (hrest : rest ≠ [])
    (hwraps : Int32.ofNat (rest.length + 1) = 1) :
    (table [⟨ascii "GET", SLASH :: 0x61 :: rest, 0⟩]).matchRoute (ascii "GET") (ascii "/a") ≠
      firstMatch [⟨ascii "GET", SLASH :: 0x61 :: rest, 0⟩] (ascii "GET") (ascii "/a") := by
  have hflat : (table [⟨ascii "GET", SLASH :: 0x61 :: rest, 0⟩]).matchRoute (ascii "GET") (ascii "/a") = .found 0 [] := by
    have h := refines_one hslash
    generalize table [⟨ascii "GET", SLASH :: 0x61 :: rest, 0⟩] = rt at h
    have hlen : rt.segLen = [1] := by rw [h.segLen, List.map_singleton, hwraps]
    have hrt : rt = ⟨ascii "GET" ++ 0x61 :: rest, [3], [1], [false], [0], [1], [0], [3], [0], rt.rParamCount⟩ := by
      cases rt
      rw [FlatRouter.mk.injEq]
      exact ⟨h.buf, h.segOff, hlen, h.segIsParam, h.rSegStart, h.rSegCount, h.rMethOff, h.rMethLen, h.rHandler, rfl⟩
    rw [hrt, match_one]
  have hmiss : firstMatch [⟨ascii "GET", SLASH :: 0x61 :: rest, 0⟩] (ascii "GET") (ascii "/a") = .miss := by
    have hpath : pieces (ascii "/a") = [[0x61]] := by decide
    have hne : (0x61 :: rest == [0x61]) = false := by
      rw [beq_eq_false_iff_ne]
      intro heq
      exact hrest (List.cons.inj heq).2
    have htakes : takes (RouteCall.segments ⟨ascii "GET", SLASH :: 0x61 :: rest, 0⟩) [[0x61]] = false := by
      rw [RouteCall.segments, pieces_one hslash]
      show ((false || (0x61 :: rest == [0x61])) && true) = false
      rw [hne]
      rfl
    rw [firstMatch, hpath, firstTaking, List.find?_singleton, htakes, List.any_cons, htakes]
    rfl
  rw [hflat, hmiss]
  exact fun heq => Bool.noConfusion (congrArg MatchResult.matched heq)

end

/-- A handler id of 33 bits comes back as another, and a segment of `2 ^ 32 + 1` bytes takes one of a single byte. -/
theorem match_ne_firstMatch :
    (table [⟨ascii "GET", ascii "/", 2147483648⟩]).matchRoute (ascii "GET") (ascii "/") ≠
        firstMatch [⟨ascii "GET", ascii "/", 2147483648⟩] (ascii "GET") (ascii "/") ∧
      (table [⟨ascii "GET", SLASH :: 0x61 :: List.replicate 4294967296 0x61, 0⟩]).matchRoute (ascii "GET") (ascii "/a") ≠
        firstMatch [⟨ascii "GET", SLASH :: 0x61 :: List.replicate 4294967296 0x61, 0⟩] (ascii "GET") (ascii "/a") := by
  constructor
  · decide
  · apply match_ne_of_wraps
    · intro b hb
      rw [(List.mem_replicate.mp hb).2]
      rfl
    · intro hnil
      have hlen := congrArg List.length hnil
      rw [List.length_replicate] at hlen
      exact absurd hlen (by decide)
    · rw [List.length_replicate]
      decide

end FlatRouter

end MojoHttp
