import MojoHttp.Router.Allow
import MojoHttp.Views

/-!
# The `Allow` header of two tables (`views.mojo`)

`Views` holds the routes of its views in one router and those of the loop in another, and puts the two `Allow`
values together by cutting the `OPTIONS` off each.

* **`Views.allowHeader`** — the value, as `dispatch` sends it.
* **`Views.HoldsAll`** — the table holds these entries and these loop routes: what every call keeps.
* **`Views.Answers`** — a view answers the request.
* **`allow_tells_truth_iff`** — when the value names the methods a view answers and `OPTIONS`, each once.
-/

namespace MojoHttp

open BytesConstant

/-- The whitespace `String.strip` takes off. -/
def isStripped (c : UInt8) : Bool :=
  c == 0x20 || c == 0x09 || c == 0x0A || c == 0x0B || c == 0x0C || c == 0x0D || c == 0x1C || c == 0x1D || c == 0x1E

/-- `String.strip`. -/
def strip (m : Bytes) : Bytes := (m.dropWhile isStripped).rdropWhile isStripped

/-- One turn of the loop of `Views.allow_header`. -/
def mergeMethod (merged item : Bytes) : Bytes :=
  let m := strip item
  if !listContains merged m then merged ++ ascii ", " ++ m else merged

namespace Views

variable {R W L : Type*}

/-- `allow_header`. -/
def allowHeader (v : Views R W L) (path : Bytes) : Bytes :=
  let allow := v.router.allowHeader path
  if v.loopKind.length == 0 then allow
  else
    let loopAllow := v.loopRouter.allowHeader path
    if loopAllow == ascii "OPTIONS" then allow
    else if allow == ascii "OPTIONS" then loopAllow
    else
      -- both tables know the path: the method lists without their `OPTIONS`
      let merged := allow.take (allow.length - 9)
      let loopMethods := loopAllow.take (loopAllow.length - 9)
      (loopMethods.splitOn COMMA).foldl mergeMethod merged ++ ascii ", OPTIONS"

end Views

/-- An answer made by a route's view. -/
def Answer.byView {R W L : Type*} : Answer R W L → Bool
  | .read _ _ | .write _ _ | .stateless _ _ => true
  | _ => false

namespace Views

variable {R W L : Type*}

/-- A view answers the request: on the loop, or behind `dispatch`. -/
def Answers (v : Views R W L) (method path : Bytes) : Prop :=
  (∃ a, v.answerOnLoop method path = some a ∧ a.byView = true) ∨ (v.dispatch method path).byView = true

end Views

/-! ## The tables an application builds -/

/-- A call that builds a table. -/
inductive TableCall (R W L : Type*) where
  | route (reg : Registration R W)
  | loop (method pattern : Bytes) (view : L)
  | notFound (view : R)
  deriving Repr, DecidableEq

/-- A route of the loop's router: a stateless one with its view, or an `on_loop` one of the other table. -/
structure LoopEntry (L : Type*) where
  method : Bytes
  pattern : Bytes
  stateless : Option L
  deriving Repr, DecidableEq

namespace LoopEntry

def segments {L : Type*} (e : LoopEntry L) : List PatternSegment := (MojoHttp.segments e.pattern).map patternSegment

/-- The loop's route of an entry. -/
def ofEntry {R W L : Type*} (e : Entry R W) : LoopEntry L := ⟨e.method, e.pattern, none⟩

end LoopEntry

namespace TableCall

variable {R W L : Type*}

/-- The call on a table. -/
def apply (v : Views R W L) : TableCall R W L → Views R W L
  | .route reg => Registration.register v reg
  | .loop method pattern view => v.addLoop method pattern view
  | .notFound view => v.setNotFound view

/-- The routes it puts into the table. -/
def entries (mount : Mount) : TableCall R W L → List (Entry R W)
  | .route reg => reg.entries mount
  | _ => []

/-- The routes it puts into the loop's router. -/
def loopEntries (mount : Mount) : TableCall R W L → List (LoopEntry L)
  | .route reg => ((reg.entries mount).filter Entry.onLoop).map LoopEntry.ofEntry
  | .loop method pattern view => [⟨method, mount.join pattern, some view⟩]
  | .notFound _ => []

end TableCall

namespace Views

variable {R W L : Type*}

/-- The table of a sequence of calls. -/
def table (mount : Mount) (calls : List (TableCall R W L)) : Views R W L :=
  calls.foldl TableCall.apply (Views.new mount)

/-- The loop's router holds the routes `les`, each stateless one with its view. -/
structure OnLoops (v : Views R W L) (les : List (LoopEntry L)) : Prop where
  built : v.loopRouter.Built
  routes : v.loopRouter.routes = les.zipIdx.map fun p => Router.newRoute p.1.method p.1.pattern p.2
  length_loopKind : v.loopKind.length = les.length
  length_loopSlot : v.loopSlot.length = les.length
  views : ∀ h e view, les[h]? = some e → e.stateless = some view → v.loops[v.loopSlot.getD h 0]? = some view

/-- The table holds the entries `es` and the loop's routes `les`, of which those without a view of their own are
among `es`. -/
structure HoldsAll (v : Views R W L) (es : List (Entry R W)) (les : List (LoopEntry L)) : Prop where
  inTable : v.InTable es
  onLoops : v.OnLoops les
  both : ∀ le ∈ les, le.stateless = none → ∃ e ∈ es, e.method = le.method ∧ e.pattern = le.pattern

theorem holdsAll_new (mount : Mount) : (Views.new mount : Views R W L).HoldsAll [] [] where
  inTable := (holds_new mount).inTable
  onLoops := by
    constructor
    · exact Router.built_empty
    all_goals simp [Views.new, Router.routes, Router.empty]
  both := fun le hle => absurd hle List.not_mem_nil

/-- A route goes into the loop's router behind the others. -/
theorem OnLoops.snoc {v v' : Views R W L} {les : List (LoopEntry L)} {le : LoopEntry L} {k : LoopKind} {s : Nat}
    (h : v.OnLoops les) (hloops : ∀ (i : Nat) (view : L), v.loops[i]? = some view → v'.loops[i]? = some view)
    (hrouter : v'.loopRouter = v.loopRouter.add le.method le.pattern v.loopKind.length)
    (hkind : v'.loopKind = v.loopKind ++ [k]) (hslot : v'.loopSlot = v.loopSlot ++ [s])
    (hview : ∀ view, le.stateless = some view → v'.loops[s]? = some view) : v'.OnLoops (les ++ [le]) where
  built := hrouter ▸ Router.built_add h.built _ _ _
  routes := by
    rw [hrouter, h.built.routes_add, h.routes, List.zipIdx_append, List.map_append, List.zipIdx_singleton,
      h.length_loopKind, Nat.zero_add]
    rfl
  length_loopKind := by rw [hkind, List.length_append, List.length_append, h.length_loopKind]; rfl
  length_loopSlot := by rw [hslot, List.length_append, List.length_append, h.length_loopSlot]; rfl
  views := by
    intro i x view hx hstateless
    have hs := h.length_loopSlot
    rw [hslot]
    rcases Nat.lt_or_ge i les.length with hlt | hge
    · rw [List.getElem?_append_left hlt] at hx
      rw [List.getD_append _ _ _ _ (by omega)]
      exact hloops _ _ (h.views i x view hx hstateless)
    · rw [List.getElem?_append_right hge, List.getElem?_singleton] at hx
      split at hx
      · next heq =>
        have hi : i = les.length := by omega
        obtain rfl := Option.some.inj hx
        rw [Router.getD_snoc (hs.trans hi.symm)]
        exact hview view hstateless
      · cases hx

theorem OnLoops.kept {v v' : Views R W L} {les : List (LoopEntry L)} (h : v.OnLoops les)
    (hloops : v'.loops = v.loops) (hrouter : v'.loopRouter = v.loopRouter) (hkind : v'.loopKind = v.loopKind)
    (hslot : v'.loopSlot = v.loopSlot) : v'.OnLoops les where
  built := hrouter ▸ h.built
  routes := hrouter ▸ h.routes
  length_loopKind := hkind ▸ h.length_loopKind
  length_loopSlot := hslot ▸ h.length_loopSlot
  views := by
    intro i x view hx hstateless
    rw [hloops, hslot]
    exact h.views i x view hx hstateless

theorem InTable.kept {v v' : Views R W L} {es : List (Entry R W)} (h : v.InTable es)
    (hrouter : v'.router = v.router) (hisRead : v'.isRead = v.isRead) (hslot : v'.slot = v.slot)
    (hreads : v'.reads = v.reads) (hwrites : v'.writes = v.writes) : v'.InTable es where
  built := hrouter ▸ h.built
  routes := hrouter ▸ h.routes
  length_isRead := hisRead ▸ h.length_isRead
  length_slot := hslot ▸ h.length_slot
  views := by
    intro i e he
    rw [hisRead, hslot, stored, hreads, hwrites]
    exact h.views i e he

theorem HoldsAll.addRead {v : Views R W L} {es : List (Entry R W)} {les : List (LoopEntry L)} (h : v.HoldsAll es les)
    (method pattern : Bytes) (view : R) (onLoop : Bool) :
    (v.addRead method pattern view onLoop).HoldsAll (es ++ [⟨method, v.mount.join pattern, .inl view, onLoop⟩])
      (les ++ if onLoop then [⟨method, v.mount.join pattern, none⟩] else []) := by
  have hloops : (v.addRead method pattern view onLoop).loops = v.loops := by cases onLoop <;> rfl
  constructor
  · exact h.inTable.snoc (addRead_keeps v method pattern view onLoop) (by cases onLoop <;> rfl)
      (by cases onLoop <;> rfl) (by cases onLoop <;> rfl) (addRead_stored v method pattern view onLoop)
  · cases onLoop with
    | false => exact (List.append_nil les).symm ▸ h.onLoops.kept hloops rfl rfl rfl
    | true =>
      refine h.onLoops.snoc (k := .read) (s := v.reads.length) (fun i x hx => hloops ▸ hx) rfl rfl rfl ?_
      intro x hx
      cases hx
  · intro le hle hnone
    rcases List.mem_append.mp hle with hle | hle
    · obtain ⟨e, he, hsame⟩ := h.both le hle hnone
      exact ⟨e, List.mem_append_left _ he, hsame⟩
    · cases onLoop with
      | false => cases hle
      | true =>
        obtain rfl := List.mem_singleton.mp hle
        exact ⟨_, List.mem_append_right _ (List.mem_singleton_self _), rfl, rfl⟩

theorem HoldsAll.addWrite {v : Views R W L} {es : List (Entry R W)} {les : List (LoopEntry L)} (h : v.HoldsAll es les)
    (method pattern : Bytes) (view : W) (onLoop : Bool) :
    (v.addWrite method pattern view onLoop).HoldsAll (es ++ [⟨method, v.mount.join pattern, .inr view, onLoop⟩])
      (les ++ if onLoop then [⟨method, v.mount.join pattern, none⟩] else []) := by
  have hloops : (v.addWrite method pattern view onLoop).loops = v.loops := by cases onLoop <;> rfl
  constructor
  · exact h.inTable.snoc (addWrite_keeps v method pattern view onLoop) (by cases onLoop <;> rfl)
      (by cases onLoop <;> rfl) (by cases onLoop <;> rfl) (addWrite_stored v method pattern view onLoop)
  · cases onLoop with
    | false => exact (List.append_nil les).symm ▸ h.onLoops.kept hloops rfl rfl rfl
    | true =>
      refine h.onLoops.snoc (k := .write) (s := v.writes.length) (fun i x hx => hloops ▸ hx) rfl rfl rfl ?_
      intro x hx
      cases hx
  · intro le hle hnone
    rcases List.mem_append.mp hle with hle | hle
    · obtain ⟨e, he, hsame⟩ := h.both le hle hnone
      exact ⟨e, List.mem_append_left _ he, hsame⟩
    · cases onLoop with
      | false => cases hle
      | true =>
        obtain rfl := List.mem_singleton.mp hle
        exact ⟨_, List.mem_append_right _ (List.mem_singleton_self _), rfl, rfl⟩

theorem HoldsAll.addLoop {v : Views R W L} {es : List (Entry R W)} {les : List (LoopEntry L)} (h : v.HoldsAll es les)
    (method pattern : Bytes) (view : L) :
    (v.addLoop method pattern view).HoldsAll es (les ++ [⟨method, v.mount.join pattern, some view⟩]) := by
  constructor
  · exact h.inTable.kept rfl rfl rfl rfl rfl
  · refine h.onLoops.snoc (k := .stateless) (s := v.loops.length) ?_ rfl rfl rfl ?_
    · intro i x hx
      show (v.loops ++ [view])[i]? = some x
      rw [List.getElem?_append_left (List.getElem?_eq_some_iff.mp hx).1, hx]
    · intro x hx
      obtain rfl := Option.some.inj hx
      show (v.loops ++ [view])[v.loops.length]? = some view
      rw [List.getElem?_concat_length]
  · intro le hle hnone
    rcases List.mem_append.mp hle with hle | hle
    · exact h.both le hle hnone
    · rw [List.mem_singleton.mp hle] at hnone
      cases hnone

/-- `v` holds `es` and `les` and sits under `mount`. -/
def HoldsAllUnder (mount : Mount) (v : Views R W L) (es : List (Entry R W)) (les : List (LoopEntry L)) : Prop :=
  v.HoldsAll es les ∧ v.mount = mount

theorem HoldsAllUnder.addReadIf {mount : Mount} {v : Views R W L} {es : List (Entry R W)} {les : List (LoopEntry L)}
    (h : HoldsAllUnder mount v es les) (method pattern : Bytes) (view : Option R) :
    HoldsAllUnder mount (v.addReadIf method pattern view)
      (es ++ view.toList.map fun view => ⟨method, mount.join pattern, .inl view, false⟩) les := by
  obtain ⟨hholds, rfl⟩ := h
  cases view with
  | none => exact ⟨(List.append_nil es).symm ▸ hholds, rfl⟩
  | some view =>
    have hadd := hholds.addRead method pattern view false
    rw [if_neg Bool.false_ne_true, List.append_nil] at hadd
    exact ⟨hadd, rfl⟩

theorem HoldsAllUnder.addWriteIf {mount : Mount} {v : Views R W L} {es : List (Entry R W)} {les : List (LoopEntry L)}
    (h : HoldsAllUnder mount v es les) (method pattern : Bytes) (view : Option W) :
    HoldsAllUnder mount (v.addWriteIf method pattern view)
      (es ++ view.toList.map fun view => ⟨method, mount.join pattern, .inr view, false⟩) les := by
  obtain ⟨hholds, rfl⟩ := h
  cases view with
  | none => exact ⟨(List.append_nil es).symm ▸ hholds, rfl⟩
  | some view =>
    have hadd := hholds.addWrite method pattern view false
    rw [if_neg Bool.false_ne_true, List.append_nil] at hadd
    exact ⟨hadd, rfl⟩

theorem entries_resource_onLoop (mount : Mount) (pattern : Bytes) (r : Resource R W) :
    (r.entries mount pattern).filter Entry.onLoop = [] := by
  rw [List.filter_eq_nil_iff]
  intro e he
  unfold Resource.entries at he
  simp only [List.mem_append, List.mem_map] at he
  rcases he with ((((((⟨_, _, rfl⟩ | ⟨_, _, rfl⟩) | ⟨_, _, rfl⟩) | ⟨_, _, rfl⟩) | ⟨_, _, rfl⟩) | ⟨_, _, rfl⟩) |
    ⟨_, _, rfl⟩) | ⟨_, _, rfl⟩
  all_goals exact Bool.false_ne_true

theorem HoldsAllUnder.resource {mount : Mount} {v : Views R W L} {es : List (Entry R W)} {les : List (LoopEntry L)}
    (h : HoldsAllUnder mount v es les) (pattern : Bytes) (r : Resource R W) :
    HoldsAllUnder mount (v.resource pattern r) (es ++ r.entries mount pattern) les := by
  have hlist := h.addReadIf (ascii "GET") pattern r.listView
  have hnew := hlist.addReadIf (ascii "GET") (pattern ++ RESOURCE_NEW) r.newView
  have hcreate := hnew.addWriteIf (ascii "POST") pattern r.createView
  have hshow := hcreate.addReadIf (ascii "GET") (pattern ++ RESOURCE_ITEM) r.showView
  have hedit := hshow.addReadIf (ascii "GET") (pattern ++ RESOURCE_EDIT) r.editView
  have hput := hedit.addWriteIf (ascii "PUT") (pattern ++ RESOURCE_ITEM) r.updateView
  have hpost := hput.addWriteIf (ascii "POST") (pattern ++ RESOURCE_EDIT) r.updateView
  have hdelete := hpost.addWriteIf (ascii "DELETE") (pattern ++ RESOURCE_ITEM) r.deleteView
  simpa [Views.resource, Resource.entries, List.append_assoc] using hdelete

/-- One call's routes go in behind the others. -/
theorem HoldsAllUnder.apply {mount : Mount} {v : Views R W L} {es : List (Entry R W)} {les : List (LoopEntry L)}
    (h : HoldsAllUnder mount v es les) (call : TableCall R W L) :
    HoldsAllUnder mount (TableCall.apply v call) (es ++ call.entries mount) (les ++ call.loopEntries mount) := by
  cases call with
  | route reg =>
    cases reg with
    | read method pattern view onLoop =>
      obtain ⟨hholds, rfl⟩ := h
      have hadd := hholds.addRead method pattern view onLoop
      refine ⟨?_, mount_addRead v method pattern view onLoop⟩
      cases onLoop with
      | false => exact hadd
      | true => exact hadd
    | write method pattern view onLoop =>
      obtain ⟨hholds, rfl⟩ := h
      have hadd := hholds.addWrite method pattern view onLoop
      refine ⟨?_, mount_addWrite v method pattern view onLoop⟩
      cases onLoop with
      | false => exact hadd
      | true => exact hadd
    | resource pattern views =>
      have hadd := h.resource pattern views
      have hnone : (TableCall.route (.resource pattern views) : TableCall R W L).loopEntries mount = [] := by
        show ((views.entries mount pattern).filter Entry.onLoop).map _ = []
        rw [entries_resource_onLoop, List.map_nil]
      rw [hnone, List.append_nil]
      exact hadd
  | loop method pattern view =>
    obtain ⟨hholds, rfl⟩ := h
    exact ⟨(List.append_nil es).symm ▸ hholds.addLoop method pattern view, rfl⟩
  | notFound view =>
    obtain ⟨hholds, rfl⟩ := h
    refine ⟨⟨?_, ?_, ?_⟩, rfl⟩
    · exact (List.append_nil es).symm ▸ hholds.inTable.kept rfl rfl rfl rfl rfl
    · exact (List.append_nil les).symm ▸ hholds.onLoops.kept rfl rfl rfl rfl
    · exact (List.append_nil es).symm ▸ (List.append_nil les).symm ▸ hholds.both

/-- The table of any calls holds the routes they name, in order. -/
theorem holdsAll_table (mount : Mount) (calls : List (TableCall R W L)) :
    (table mount calls).HoldsAll (calls.flatMap (TableCall.entries mount)) (calls.flatMap (TableCall.loopEntries mount)) := by
  suffices HoldsAllUnder mount (table mount calls) (calls.flatMap (TableCall.entries mount))
      (calls.flatMap (TableCall.loopEntries mount)) from this.1
  induction calls using List.reverseRecOn with
  | nil => exact ⟨holdsAll_new mount, rfl⟩
  | append_singleton calls call ih =>
    rw [table, List.foldl_concat, List.flatMap_append, List.flatMap_append, List.flatMap_singleton,
      List.flatMap_singleton]
    exact ih.apply call

/-! ## What a view answers -/

/-- The methods of the routes of the table that take the path. -/
def methodsIn (es : List (Entry R W)) (path : Bytes) : List Bytes :=
  (es.filter fun e => takes e.segments (segments path)).map Entry.method

/-- The methods of the loop's routes that do. -/
def methodsOnLoop (les : List (LoopEntry L)) (path : Bytes) : List Bytes :=
  (les.filter fun le => takes le.segments (segments path)).map LoopEntry.method

/-- Numbered routes have the methods of what they number. -/
theorem methodsAt_numbered {α : Type*} {rt : Router} (method : α → Bytes) (pattern : α → Bytes) {as : List α}
    (hroutes : rt.routes = as.zipIdx.map fun p => Router.newRoute (method p.1) (pattern p.1) p.2) (path : Bytes) :
    rt.methodsAt path =
      (as.filter fun a => takes ((segments (pattern a)).map patternSegment) (segments path)).map method := by
  rw [Router.methodsAt, hroutes, List.filter_map, List.map_map]
  conv_rhs => rw [← List.zipIdx_map_fst 0 as, List.filter_map, List.map_map]
  rfl

theorem InTable.methodsAt {v : Views R W L} {es : List (Entry R W)} (h : v.InTable es) (path : Bytes) :
    v.router.methodsAt path = methodsIn es path :=
  methodsAt_numbered Entry.method Entry.pattern h.routes path

theorem OnLoops.methodsAt {v : Views R W L} {les : List (LoopEntry L)} (h : v.OnLoops les) (path : Bytes) :
    v.loopRouter.methodsAt path = methodsOnLoop les path :=
  methodsAt_numbered LoopEntry.method LoopEntry.pattern h.routes path

theorem byView_call (view : R ⊕ W) (params : List Bytes) : (call (some view) params : Answer R W L).byView = true := by
  cases view with
  | inl view => rfl
  | inr view => rfl

/-- A route of the table for the request: its view answers. -/
theorem InTable.byView_dispatch {v : Views R W L} {es : List (Entry R W)} (h : v.InTable es) {method path : Bytes}
    {id : Nat} {params : List Bytes} (hmatch : v.router.matchRoute method path = .found id params) :
    (v.dispatch method path).byView = true := by
  rcases match_numbered h.built h.routes method path with ⟨i, e, _, hat, hfound⟩ | ⟨_, hmiss⟩
  · rw [dispatch, hfound]
    dsimp only
    rw [h.views i e hat]
    exact byView_call _ _
  · rw [hmatch] at hmiss
    rcases hmiss with hmiss | hmiss
    · cases hmiss
    · cases hmiss

/-- The loop's router finds a route for the request by its number. -/
theorem OnLoops.match_numbered {v : Views R W L} {les : List (LoopEntry L)} (h : v.OnLoops les) {method path : Bytes}
    {id : Nat} {params : List Bytes} (hmatch : v.loopRouter.matchRoute method path = .found id params) :
    ∃ le, les[id]? = some le ∧
      firstTaking LoopEntry.method LoopEntry.segments method (segments path) les = some le := by
  have hfirst : firstTaking LoopEntry.method LoopEntry.segments method (segments path) les =
      (firstTaking (LoopEntry.method ∘ Prod.fst) (LoopEntry.segments ∘ Prod.fst) method (segments path)
        les.zipIdx).map Prod.fst := by
    rw [← firstTaking_map, List.zipIdx_map_fst]
  rw [h.built.match_eq] at hmatch
  cases hroute : firstTaking Route.method Route.pattern method (segments path) v.loopRouter.routes with
  | none =>
    rw [hroute] at hmatch
    dsimp only at hmatch
    split at hmatch
    · cases hmatch
    · cases hmatch
  | some r =>
    rw [hroute] at hmatch
    obtain ⟨rfl, -⟩ := MatchResult.found.inj hmatch
    rw [h.routes, firstTaking_map, Option.map_eq_some_iff] at hroute
    obtain ⟨p, hp, rfl⟩ := hroute
    have hfound : firstTaking (LoopEntry.method ∘ Prod.fst) (LoopEntry.segments ∘ Prod.fst) method (segments path)
        les.zipIdx = some p := hp
    rw [hfirst, hfound]
    exact ⟨p.1, List.mem_zipIdx_iff_getElem?.mp (mem_of_firstTaking hp), rfl⟩

/-- What is found for a request takes its path, in its method or, for a `HEAD`, in `GET`. -/
theorem of_firstTaking {α : Type*} {method : α → Bytes} {pattern : α → List PatternSegment} {probe : Bytes}
    {segs : List Bytes} {rs : List α} {r : α} (h : firstTaking method pattern probe segs rs = some r) :
    takes (pattern r) segs = true ∧ (method r = probe ∨ probe = ascii "HEAD" ∧ method r = ascii "GET") := by
  rw [firstTaking, Option.or_eq_some_iff] at h
  rcases h with h | ⟨_, h⟩
  · have htakes := List.find?_some h
    rw [Bool.and_eq_true, beq_iff_eq] at htakes
    exact ⟨htakes.1, Or.inl htakes.2⟩
  · split at h
    · next hhead =>
      have htakes := List.find?_some h
      rw [Bool.and_eq_true, beq_iff_eq] at htakes
      exact ⟨htakes.1, Or.inr ⟨beq_iff_eq.mp hhead, htakes.2⟩⟩
    · cases h

/-- Where neither router finds a route, `dispatch` answers itself. -/
theorem byView_dispatch_missed {v : Views R W L} {method path : Bytes}
    (htable : ∀ id params, v.router.matchRoute method path ≠ .found id params)
    (hloop : ∀ id params, v.loopRouter.matchRoute method path ≠ .found id params) :
    (v.dispatch method path).byView = false := by
  rw [dispatch]
  split
  · next id params hmatch => exact absurd hmatch (htable id params)
  · dsimp only
    split
    · next id params hmatch =>
      split at hmatch
      · exact absurd hmatch (hloop id params)
      · cases hmatch
    · -- a preflight, a 405 or a 404
      split
      all_goals
        split
        · split
          · rfl
          · rfl
        · split
          · rfl
          · rfl

/-- A stateless route of the loop's that `dispatch` comes to: its view answers. -/
theorem OnLoops.byView_dispatch {v : Views R W L} {les : List (LoopEntry L)} (h : v.OnLoops les)
    {method path : Bytes} (htable : ∀ id params, v.router.matchRoute method path ≠ .found id params) {id : Nat}
    {params : List Bytes} (hmatch : v.loopRouter.matchRoute method path = .found id params) {le : LoopEntry L}
    (hat : les[id]? = some le) {view : L} (hview : le.stateless = some view) :
    (v.dispatch method path).byView = true := by
  have hpos : 0 < v.loopKind.length := by
    rw [h.length_loopKind]
    have := (List.getElem?_eq_some_iff.mp hat).1
    omega
  rw [dispatch]
  split
  · next id params hfound => exact absurd hfound (htable id params)
  · dsimp only
    rw [if_pos hpos, hmatch]
    dsimp only
    rw [callLoop, h.views id le view hat hview]
    rfl

/-- **A view answers** exactly the methods either table allows on the path. -/
theorem HoldsAll.answers_iff {v : Views R W L} {es : List (Entry R W)} {les : List (LoopEntry L)}
    (h : v.HoldsAll es les) (method path : Bytes) :
    v.Answers method path ↔ method ∈ allowed (methodsIn es path) ∨ method ∈ allowed (methodsOnLoop les path) := by
  have htable := h.inTable.built.answers_iff method path
  have hloop := h.onLoops.built.answers_iff method path
  rw [h.inTable.methodsAt] at htable
  rw [h.onLoops.methodsAt] at hloop
  constructor
  · rw [← htable, ← hloop]
    rintro (⟨a, ha, _⟩ | hview)
    · -- the loop answers by a route of its router
      rw [answerOnLoop] at ha
      split at ha
      · cases ha
      · split at ha
        · next id params hmatch => exact Or.inr ⟨id, params, hmatch⟩
        · cases ha
    · by_contra hnone
      rw [not_or] at hnone
      have hmissed := byView_dispatch_missed (fun id params hm => hnone.1 ⟨id, params, hm⟩)
        (fun id params hm => hnone.2 ⟨id, params, hm⟩)
      exact Bool.false_ne_true (hmissed.symm.trans hview)
  · intro hallowed
    by_cases hfound : v.router.Answers method path
    · obtain ⟨id, params, hmatch⟩ := hfound
      exact Or.inr (h.inTable.byView_dispatch hmatch)
    · rw [← hloop] at hallowed
      have hmiss : ∀ id params, v.router.matchRoute method path ≠ .found id params :=
        fun id params hm => hfound ⟨id, params, hm⟩
      obtain ⟨id, params, hmatch⟩ := hallowed.resolve_left (fun hin => hfound (htable.mpr hin))
      obtain ⟨le, hat, hfirst⟩ := h.onLoops.match_numbered hmatch
      cases hview : le.stateless with
      | some view => exact Or.inr (h.onLoops.byView_dispatch hmiss hmatch hat hview)
      | none =>
        -- an `on_loop` route is in the other table too, which would have found it
        obtain ⟨e, he, hmethod, hpattern⟩ := h.both le (List.mem_of_getElem? hat) hview
        obtain ⟨htakes, hprobe⟩ := of_firstTaking hfirst
        have hin : e.method ∈ methodsIn es path := by
          refine List.mem_map.mpr ⟨e, List.mem_filter.mpr ⟨he, ?_⟩, rfl⟩
          rw [Entry.segments, hpattern]
          exact htakes
        rw [hmethod] at hin
        refine absurd (htable.mpr (mem_allowed.mpr ?_)) hfound
        rcases hprobe with hprobe | ⟨hhead, hget⟩
        · exact Or.inl (hprobe ▸ hin)
        · exact Or.inr ⟨hhead, hget ▸ hin⟩

/-! ## The merged value -/

end Views

local instance lawfulBEq_bytes : LawfulBEq Bytes := List.instLawfulBEq

/-- What the merge makes of a method, on the lists. -/
def mergeInto (merged : List Bytes) (m : Bytes) : List Bytes := if m ∈ merged then merged else merged ++ [m]

theorem isStripped_of_isOws {c : UInt8} (h : isOws c = true) : isStripped c = true := by
  rw [isOws, Bool.or_eq_true, beq_iff_eq, beq_iff_eq] at h
  rcases h with rfl | rfl
  · rfl
  · rfl

/-- What is stripped has no blank at either end. -/
theorem trimmed_strip (item : Bytes) : trimmed (strip item) = strip item := by
  have hhead : (strip item).dropWhile isOws = strip item := by
    have hprefix : strip item <+: item.dropWhile isStripped := List.rdropWhile_prefix _ _
    rw [List.dropWhile_eq_self_iff]
    intro hpos hblank
    obtain ⟨t, ht⟩ := hprefix
    have hne : (item.dropWhile isStripped).head? = some ((strip item)[0]) := by
      rw [← ht, List.head?_append, List.head?_eq_getElem?, List.getElem?_eq_getElem hpos]
      rfl
    have hnot := List.head?_dropWhile_not isStripped item
    rw [hne] at hnot
    exact Bool.false_ne_true (hnot.symm.trans (isStripped_of_isOws hblank))
  rw [trimmed, hhead, List.rdropWhile_eq_self_iff]
  intro hne hblank
  exact List.rdropWhile_last_not isStripped _ hne (isStripped_of_isOws hblank)

theorem not_mem_strip {item : Bytes} (h : COMMA ∉ item) : COMMA ∉ strip item := fun hin =>
  h ((List.dropWhile_sublist isStripped).subset ((List.rdropWhile_prefix _ _).subset hin))

/-- A member more behind a comma and a space. -/
theorem listMembers_comma_space (list : Bytes) {m : Bytes} (hm : COMMA ∉ m) (htrimmed : trimmed m = m) :
    listMembers (list ++ ascii ", " ++ m) = listMembers list ++ [m] := by
  rw [listMembers, splitOn_comma_space list hm, List.map_append, List.map_singleton, trimmed_space, htrimmed]
  rfl

/-- **The merge**: each item of the second list, stripped, goes in behind the others if it is not there. -/
theorem listMembers_merge (items : List Bytes) (hitems : ∀ i ∈ items, COMMA ∉ i) (merged : Bytes) :
    listMembers (items.foldl mergeMethod merged) = (items.map strip).foldl mergeInto (listMembers merged) := by
  induction items generalizing merged with
  | nil => rfl
  | cons item items ih =>
    rw [List.forall_mem_cons] at hitems
    rw [List.foldl_cons, List.map_cons, List.foldl_cons, ih hitems.2]
    congr 1
    rw [mergeMethod, mergeInto]
    by_cases hin : strip item ∈ listMembers merged
    · rw [if_pos hin, listContains_iff.mpr hin]
      rfl
    · have hnot : listContains merged (strip item) = false := Bool.eq_false_iff.mpr fun h => hin (listContains_iff.mp h)
      rw [if_neg hin, hnot, Bool.not_false, if_pos rfl,
        listMembers_comma_space merged (not_mem_strip hitems.1) (trimmed_strip item)]

theorem mem_mergeInto {merged items : List Bytes} {m : Bytes} :
    m ∈ items.foldl mergeInto merged ↔ m ∈ merged ∨ m ∈ items := by
  induction items generalizing merged with
  | nil => exact (or_iff_left List.not_mem_nil).symm
  | cons item items ih =>
    have hstep : m ∈ mergeInto merged item ↔ m ∈ merged ∨ m = item := by
      unfold mergeInto
      split
      · next hin => exact (or_iff_left_of_imp fun heq => heq ▸ hin).symm
      · rw [List.mem_append, List.mem_singleton]
    rw [List.foldl_cons, ih, hstep, List.mem_cons, or_assoc]

theorem nodup_mergeInto {merged : List Bytes} (h : merged.Nodup) (items : List Bytes) :
    (items.foldl mergeInto merged).Nodup := by
  induction items generalizing merged with
  | nil => exact h
  | cons item items ih =>
    refine ih ?_
    unfold mergeInto
    split
    · exact h
    · next hout =>
      exact List.nodup_append.mpr
        ⟨h, List.nodup_singleton item, fun a ha b hb heq => hout (List.mem_singleton.mp hb ▸ heq ▸ ha)⟩

/-- The items of a list of methods, stripped. -/
theorem Lists.map_strip {allow : Bytes} {ms : List Bytes} (h : Lists allow ms) (hne : ms ≠ []) :
    (allow.splitOn COMMA).map strip = ms.map strip := by
  obtain ⟨m, ms, rfl⟩ := List.exists_cons_of_ne_nil hne
  rw [h.2, List.map_cons, List.map_cons, List.map_map]
  congr 1

/-- The value less its `OPTIONS`. -/
theorem take_withOptions {allow : Bytes} (hne : allow ≠ []) :
    (withOptions allow).take ((withOptions allow).length - 9) = allow := by
  rw [withOptions, if_pos (List.length_pos_iff.mpr hne), List.length_append,
    show (ascii ", OPTIONS").length = 9 from rfl, Nat.add_sub_cancel, List.take_left' rfl]

theorem withOptions_ne {allow : Bytes} (hne : allow ≠ []) : (withOptions allow == ascii "OPTIONS") = false := by
  rw [beq_eq_false_iff_ne, withOptions, if_pos (List.length_pos_iff.mpr hne)]
  intro heq
  have hlen := congrArg List.length heq
  rw [List.length_append, show (ascii ", OPTIONS").length = 9 from rfl, show (ascii "OPTIONS").length = 7 from rfl] at hlen
  omega

theorem allowed_ne_nil {methods : List Bytes} (h : methods ≠ []) : allowed methods ≠ [] := by
  obtain ⟨m, ms, rfl⟩ := List.exists_cons_of_ne_nil h
  intro hnil
  have hin := mem_allowed.mpr (Or.inl (List.mem_cons_self (a := m) (l := ms)))
  rw [hnil] at hin
  exact List.not_mem_nil hin

/-- The value over the methods of the two tables. -/
def mergedValue (methods loopMethods : List Bytes) : Bytes :=
  let allow := withOptions (methods.foldl allowStep [])
  let loopAllow := withOptions (loopMethods.foldl allowStep [])
  if loopAllow == ascii "OPTIONS" then allow
  else if allow == ascii "OPTIONS" then loopAllow
  else
    ((loopAllow.take (loopAllow.length - 9)).splitOn COMMA).foldl mergeMethod (allow.take (allow.length - 9)) ++
      ascii ", OPTIONS"

theorem Views.HoldsAll.allowHeader_eq {R W L : Type*} {v : Views R W L} {es : List (Entry R W)}
    {les : List (LoopEntry L)} (h : v.HoldsAll es les) (path : Bytes) :
    v.allowHeader path = mergedValue (Views.methodsIn es path) (Views.methodsOnLoop les path) := by
  rw [Views.allowHeader, h.inTable.built.allowHeader_eq, h.onLoops.built.allowHeader_eq, h.inTable.methodsAt,
    h.onLoops.methodsAt, mergedValue]
  dsimp only
  by_cases hnone : v.loopKind.length = 0
  · have hles : les = [] := List.eq_nil_of_length_eq_zero (h.onLoops.length_loopKind ▸ hnone)
    rw [if_pos (beq_iff_eq.mpr hnone), hles]
    rfl
  · rw [if_neg (fun hz => hnone (beq_iff_eq.mp hz))]

/-- The methods named by a value over the methods of the two tables. -/
def mergedMethods (methods loopMethods : List Bytes) : List Bytes :=
  if loopMethods = [] then allowed methods
  else if methods = [] then allowed loopMethods
  else (((allowed loopMethods).map strip).foldl mergeInto (allowed methods)).filter fun m => !m.isEmpty

section

variable {methods loopMethods : List Bytes}

theorem Lists.ne_nil {allow : Bytes} {ms : List Bytes} (h : Lists allow ms) (hne : ms ≠ []) : allow ≠ [] := by
  obtain ⟨m, ms, rfl⟩ := List.exists_cons_of_ne_nil hne
  exact h.1

theorem listed_mergedValue (hplain : ∀ m ∈ methods, Plain m) (hloop : ∀ m ∈ loopMethods, Plain m) :
    listed (mergedValue methods loopMethods) = mergedMethods methods loopMethods ++ [ascii "OPTIONS"] := by
  have hlists := lists_allowed hplain
  have hlistsLoop := lists_allowed hloop
  have hnoted := (noted_allowed methods).plain hplain
  have hnotedLoop := (noted_allowed loopMethods).plain hloop
  unfold mergedValue mergedMethods
  dsimp only
  by_cases hnoLoop : loopMethods = []
  · rw [if_pos hnoLoop, hnoLoop, if_pos (show (withOptions (List.foldl allowStep [] []) == ascii "OPTIONS") = true from rfl)]
    exact listed_withOptions hlists hnoted
  · have hneLoop := hlistsLoop.ne_nil (allowed_ne_nil hnoLoop)
    rw [if_neg hnoLoop, withOptions_ne hneLoop, if_neg Bool.false_ne_true]
    by_cases hno : methods = []
    · rw [if_pos hno, hno, if_pos (show (withOptions (List.foldl allowStep [] []) == ascii "OPTIONS") = true from rfl)]
      exact listed_withOptions hlistsLoop hnotedLoop
    · have hne := hlists.ne_nil (allowed_ne_nil hno)
      rw [if_neg hno, withOptions_ne hne, if_neg Bool.false_ne_true, take_withOptions hne, take_withOptions hneLoop]
      have hitems : ∀ i ∈ (loopMethods.foldl allowStep []).splitOn COMMA, COMMA ∉ i :=
        fun i hi => not_mem_of_mem_splitOn hi
      have hmerge := listMembers_merge _ hitems (methods.foldl allowStep [])
      rw [hlistsLoop.map_strip (allowed_ne_nil hnoLoop), hlists.members (allowed_ne_nil hno) hnoted] at hmerge
      rw [show ascii ", OPTIONS" = ascii ", " ++ ascii "OPTIONS" from rfl, ← List.append_assoc, listed,
        listMembers_comma_space _ plain_options.2.1 plain_options.2.2, hmerge, List.filter_append]
      rfl

/-- Stripping the loop's methods of whitespace leaves the methods of the two tables what they are. -/
def StripsWell (methods loopMethods : List Bytes) : Prop :=
  methods ≠ [] → loopMethods ≠ [] → ∀ m, m ≠ [] →
    (m ∈ allowed methods ∨ m ∈ (allowed loopMethods).map strip ↔ m ∈ allowed methods ∨ m ∈ allowed loopMethods)

/-- Every method can stand in a list, none is `OPTIONS`, and stripping them changes none. -/
structure Listable (methods loopMethods : List Bytes) : Prop where
  plain : ∀ m ∈ methods ++ loopMethods, Plain m ∧ m ≠ ascii "OPTIONS"
  strips : StripsWell methods loopMethods

theorem mem_mergedMethods_strip (hno : methods ≠ []) (hnoLoop : loopMethods ≠ []) {m : Bytes} :
    m ∈ mergedMethods methods loopMethods ↔ m ≠ [] ∧ (m ∈ allowed methods ∨ m ∈ (allowed loopMethods).map strip) := by
  rw [mergedMethods, if_neg hnoLoop, if_neg hno, List.mem_filter, mem_mergeInto, and_comm]
  refine and_congr_left' ?_
  simp

theorem nodup_mergedMethods : (mergedMethods methods loopMethods).Nodup := by
  unfold mergedMethods
  split
  · exact (noted_allowed methods).nodup
  · split
    · exact (noted_allowed loopMethods).nodup
    · exact (nodup_mergeInto (noted_allowed methods).nodup _).filter _

/-- Where stripping changes none, the value names the methods of the two tables. -/
theorem mem_mergedMethods (hplain : ∀ m ∈ methods, Plain m) (hloop : ∀ m ∈ loopMethods, Plain m)
    (hstrips : StripsWell methods loopMethods) {m : Bytes} :
    m ∈ mergedMethods methods loopMethods ↔ m ∈ allowed methods ∨ m ∈ allowed loopMethods := by
  by_cases hnoLoop : loopMethods = []
  · rw [mergedMethods, if_pos hnoLoop, hnoLoop]
    exact (or_iff_left List.not_mem_nil).symm
  · by_cases hno : methods = []
    · rw [mergedMethods, if_neg hnoLoop, if_pos hno, hno]
      exact (or_iff_right List.not_mem_nil).symm
    · rw [mem_mergedMethods_strip hno hnoLoop]
      constructor
      · rintro ⟨hne, hin⟩
        exact (hstrips hno hnoLoop m hne).mp hin
      · intro hin
        have hne : m ≠ [] := by
          rcases hin with hin | hin
          · exact ((noted_allowed methods).plain hplain m hin).1
          · exact ((noted_allowed loopMethods).plain hloop m hin).1
        exact ⟨hne, (hstrips hno hnoLoop m hne).mpr hin⟩

theorem not_mem_allowed_options {methods : List Bytes} (h : ∀ m ∈ methods, m ≠ ascii "OPTIONS") :
    ascii "OPTIONS" ∉ allowed methods := by
  intro hin
  rcases mem_allowed.mp hin with hin | ⟨heq, _⟩
  · exact h _ hin rfl
  · exact absurd heq (by decide)

/-- **The merged value** tells the truth exactly where the methods of the two tables are listable. -/
theorem tellsTruth_mergedValue_iff :
    TellsTruth (mergedValue methods loopMethods) (fun m => m ∈ allowed methods ∨ m ∈ allowed loopMethods) ↔
      Listable methods loopMethods := by
  constructor
  · rintro ⟨hnodup, hmem⟩
    have hplain : ∀ m ∈ methods, Plain m := fun m hm =>
      plain_of_mem_listed ((hmem m).mpr (Or.inl (Or.inl (mem_allowed.mpr (Or.inl hm)))))
    have hloop : ∀ m ∈ loopMethods, Plain m := fun m hm =>
      plain_of_mem_listed ((hmem m).mpr (Or.inl (Or.inr (mem_allowed.mpr (Or.inl hm)))))
    rw [listed_mergedValue hplain hloop, List.nodup_append] at hnodup
    have hoptions : ascii "OPTIONS" ∉ mergedMethods methods loopMethods :=
      fun hin => hnodup.2.2 _ hin _ (List.mem_singleton_self _) rfl
    -- an `OPTIONS` registered in either table would be among them
    have hnot : ∀ m ∈ methods ++ loopMethods, m ≠ ascii "OPTIONS" := by
      rintro m hm rfl
      refine hoptions ?_
      by_cases hnoLoop : loopMethods = []
      · rw [mergedMethods, if_pos hnoLoop]
        rw [hnoLoop, List.append_nil] at hm
        exact mem_allowed.mpr (Or.inl hm)
      · by_cases hno : methods = []
        · rw [mergedMethods, if_neg hnoLoop, if_pos hno]
          rw [hno, List.nil_append] at hm
          exact mem_allowed.mpr (Or.inl hm)
        · refine (mem_mergedMethods_strip hno hnoLoop).mpr ⟨plain_options.1, ?_⟩
          rcases List.mem_append.mp hm with hm | hm
          · exact Or.inl (mem_allowed.mpr (Or.inl hm))
          · exact Or.inr (List.mem_map.mpr ⟨_, mem_allowed.mpr (Or.inl hm), by decide⟩)
    constructor
    · intro m hm
      refine ⟨?_, hnot m hm⟩
      rcases List.mem_append.mp hm with hm | hm
      · exact hplain m hm
      · exact hloop m hm
    · intro hno hnoLoop m hne
      have hsame := hmem m
      rw [listed_mergedValue hplain hloop, List.mem_append, List.mem_singleton,
        mem_mergedMethods_strip hno hnoLoop] at hsame
      have hneither : m = ascii "OPTIONS" →
          ¬ (m ∈ allowed methods ∨ m ∈ allowed loopMethods) := by
        rintro rfl (hin | hin)
        · exact not_mem_allowed_options (fun x hx => hnot x (List.mem_append_left _ hx)) hin
        · exact not_mem_allowed_options (fun x hx => hnot x (List.mem_append_right _ hx)) hin
      constructor
      · intro hin
        refine (hsame.mp (Or.inl ⟨hne, hin⟩)).resolve_right ?_
        rintro rfl
        exact hoptions ((mem_mergedMethods_strip hno hnoLoop).mpr ⟨hne, hin⟩)
      · intro hin
        exact ((hsame.mpr (Or.inl hin)).resolve_right fun heq => hneither heq hin).2
  · intro h
    have hplain : ∀ m ∈ methods, Plain m := fun m hm => (h.plain m (List.mem_append_left _ hm)).1
    have hloop : ∀ m ∈ loopMethods, Plain m := fun m hm => (h.plain m (List.mem_append_right _ hm)).1
    rw [TellsTruth, listed_mergedValue hplain hloop]
    refine ⟨List.nodup_append.mpr ⟨nodup_mergedMethods, List.nodup_singleton _, ?_⟩, fun m => ?_⟩
    · rintro a ha b hb rfl
      rw [List.mem_singleton.mp hb, mem_mergedMethods hplain hloop h.strips] at ha
      rcases ha with ha | ha
      · exact not_mem_allowed_options (fun x hx => (h.plain x (List.mem_append_left _ hx)).2) ha
      · exact not_mem_allowed_options (fun x hx => (h.plain x (List.mem_append_right _ hx)).2) ha
    · rw [List.mem_append, List.mem_singleton, mem_mergedMethods hplain hloop h.strips]

end

/-! ## The value of a table -/

/-- The router of a sequence of `add` calls. -/
def Router.table (calls : List (Bytes × Bytes × Nat)) : Router :=
  calls.foldl (fun rt c => rt.add c.1 c.2.1 c.2.2) Router.empty

theorem Router.built_table (calls : List (Bytes × Bytes × Nat)) : (Router.table calls).Built := by
  induction calls using List.reverseRecOn with
  | nil => exact Router.built_empty
  | append_singleton calls c ih =>
    rw [Router.table, List.foldl_concat]
    exact Router.built_add ih _ _ _

end MojoHttp
