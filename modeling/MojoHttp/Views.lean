import MojoHttp.Router

/-!
# Views: a route table that names its views (`views.mojo`)

`add_read` and `add_write` put a route and its view into the table together. One registered
`on_loop` goes into a second router too, which the event loop asks before the request becomes a job;
what it does not answer is left to `dispatch`.

* **`Views.Holds`** — the table holds these entries: what every registration keeps.
* **`Holds.dispatch_eq`** — `dispatch` calls the view of the first entry taking the request.
* **`Holds.answerOnLoop_eq`** — the loop calls that of the first among the `on_loop` ones.
* **`answerOnLoop_agrees_iff`** — when the two call the same view.
-/

namespace MojoHttp

open BytesConstant

/-- Where a table is mounted. -/
structure Mount where
  mountPrefix : Bytes
  deriving Repr, DecidableEq

namespace Mount

/-- `Mount(prefix)`: a leading `/` is ensured, trailing ones are dropped. -/
def new (path : Bytes) : Mount :=
  let trimmed := (path.reverse.dropWhile (· == SLASH)).reverse
  if 0 < trimmed.length && path.getD 0 0 != SLASH then ⟨SLASH :: trimmed⟩ else ⟨trimmed⟩

/-- `pattern` under this mount: what the table registers. -/
def join (at_ : Mount) (pattern : Bytes) : Bytes :=
  if at_.mountPrefix.length == 0 then pattern
  else if 0 < pattern.length && pattern.getD 0 0 == SLASH then at_.mountPrefix ++ pattern
  else at_.mountPrefix ++ SLASH :: pattern

end Mount

/-- What a loop route's handler id stands for. -/
inductive LoopKind where
  | stateless
  | read
  | write
  deriving Repr, DecidableEq

/-- Which view table a loop route's slot is in. -/
def LoopKind.isRead : LoopKind → Option Bool
  | .stateless => none
  | .read => some true
  | .write => some false

/-- A table over reading views `R`, writing ones `W` and the loop's stateless ones `L`. -/
structure Views (R W L : Type*) where
  router : Router
  /-- Loop routes only. -/
  loopRouter : Router
  reads : List R
  writes : List W
  /-- By handler id: which of the two `slot` indexes. -/
  isRead : List Bool
  slot : List Nat
  loops : List L
  /-- By the loop router's handler id. -/
  loopKind : List LoopKind
  loopSlot : List Nat
  notFound : Option R
  mount : Mount
  deriving Repr, DecidableEq

/-- What a request comes to: the view called, with its captures, or one of the table's own answers. -/
inductive Answer (R W L : Type*) where
  | read (view : R) (params : List Bytes)
  | write (view : W) (params : List Bytes)
  | stateless (view : L) (params : List Bytes)
  | preflight
  | methodNotAllowed
  | notFoundBy (view : R) (params : List Bytes)
  | notFound
  /-- A handler id without a view: "a call through whatever is there". -/
  | outOfBounds
  deriving Repr, DecidableEq

/-- The views `resource` takes, a slot left out registering nothing. -/
structure Resource (R W : Type*) where
  listView : Option R := none
  newView : Option R := none
  createView : Option W := none
  showView : Option R := none
  editView : Option R := none
  updateView : Option W := none
  deleteView : Option W := none
  deriving Repr, DecidableEq

def RESOURCE_NEW : Bytes := ascii "/new"
def RESOURCE_ITEM : Bytes := ascii "/:id"
def RESOURCE_EDIT : Bytes := ascii "/:id/edit"

namespace Views

variable {R W L : Type*}

/-- `Views(mount)`. -/
def new (mount : Mount) : Views R W L where
  router := Router.empty
  loopRouter := Router.empty
  reads := []
  writes := []
  isRead := []
  slot := []
  loops := []
  loopKind := []
  loopSlot := []
  notFound := none
  mount := mount

/-- `_place_on_loop`. -/
def placeOnLoop (v : Views R W L) (method pattern : Bytes) (kind : LoopKind) (slot : Nat) :
    Views R W L :=
  { v with
    loopRouter := v.loopRouter.add method (v.mount.join pattern) v.loopKind.length
    loopKind := v.loopKind ++ [kind]
    loopSlot := v.loopSlot ++ [slot] }

/-- `add_read`. -/
def addRead (v : Views R W L) (method pattern : Bytes) (view : R) (onLoop : Bool := false) :
    Views R W L :=
  let v := { v with
    router := v.router.add method (v.mount.join pattern) v.isRead.length
    isRead := v.isRead ++ [true]
    slot := v.slot ++ [v.reads.length] }
  let v := if onLoop then v.placeOnLoop method pattern .read v.reads.length else v
  { v with reads := v.reads ++ [view] }

/-- `add_write`. -/
def addWrite (v : Views R W L) (method pattern : Bytes) (view : W) (onLoop : Bool := false) :
    Views R W L :=
  let v := { v with
    router := v.router.add method (v.mount.join pattern) v.isRead.length
    isRead := v.isRead ++ [false]
    slot := v.slot ++ [v.writes.length] }
  let v := if onLoop then v.placeOnLoop method pattern .write v.writes.length else v
  { v with writes := v.writes ++ [view] }

/-- `add_loop`. -/
def addLoop (v : Views R W L) (method pattern : Bytes) (view : L) : Views R W L :=
  let v := v.placeOnLoop method pattern .stateless v.loops.length
  { v with loops := v.loops ++ [view] }

/-- `if view: self.add_read(method, pattern, view.value())`. -/
def addReadIf (v : Views R W L) (method pattern : Bytes) : Option R → Views R W L
  | some view => v.addRead method pattern view
  | none => v

def addWriteIf (v : Views R W L) (method pattern : Bytes) : Option W → Views R W L
  | some view => v.addWrite method pattern view
  | none => v

/-- `resource`. -/
def resource (v : Views R W L) (pattern : Bytes) (r : Resource R W) : Views R W L :=
  let item := pattern ++ RESOURCE_ITEM
  let itemEdit := pattern ++ RESOURCE_EDIT
  let v := v.addReadIf (ascii "GET") pattern r.listView
  -- before `show`, whose `:id` would capture `new`
  let v := v.addReadIf (ascii "GET") (pattern ++ RESOURCE_NEW) r.newView
  let v := v.addWriteIf (ascii "POST") pattern r.createView
  let v := v.addReadIf (ascii "GET") item r.showView
  let v := v.addReadIf (ascii "GET") itemEdit r.editView
  let v := v.addWriteIf (ascii "PUT") item r.updateView
  let v := v.addWriteIf (ascii "POST") itemEdit r.updateView
  v.addWriteIf (ascii "DELETE") item r.deleteView

/-- `set_not_found`. -/
def setNotFound (v : Views R W L) (view : R) : Views R W L := { v with notFound := some view }

/-- The view at a slot of the table `isRead` names. -/
def stored (v : Views R W L) (isRead : Bool) (slot : Nat) : Option (R ⊕ W) :=
  if isRead then v.reads[slot]?.map .inl else v.writes[slot]?.map .inr

/-- The call of a view. -/
def call (view : Option (R ⊕ W)) (params : List Bytes) : Answer R W L :=
  match view with
  | some (.inl view) => .read view params
  | some (.inr view) => .write view params
  | none => .outOfBounds

def callLoop (v : Views R W L) (slot : Nat) (params : List Bytes) : Answer R W L :=
  match v.loops[slot]? with
  | some view => .stateless view params
  | none => .outOfBounds

/-- `answer_on_loop(req, state)`: a loop route's answer, or nothing. -/
def answerOnLoop (v : Views R W L) (method path : Bytes) : Option (Answer R W L) :=
  if v.loopKind.length == 0 then none
  else
    match v.loopRouter.matchRoute method path with
    | .found h params =>
      let slot := v.loopSlot.getD h 0
      match v.loopKind.getD h .stateless with
      | .stateless => some (v.callLoop slot params)
      | .read => some (call (v.stored true slot) params)
      | .write => some (call (v.stored false slot) params)
    | _ => none

/-- `dispatch`. -/
def dispatch (v : Views R W L) (method path : Bytes) : Answer R W L :=
  match v.router.matchRoute method path with
  | .found h params => call (v.stored (v.isRead.getD h false) (v.slot.getD h 0)) params
  | missed =>
    let onLoop := if 0 < v.loopKind.length then v.loopRouter.matchRoute method path else .notFound
    match onLoop with
    | .found h params => v.callLoop (v.loopSlot.getD h 0) params
    | loopMissed =>
      if missed == .methodNotAllowed || loopMissed == .methodNotAllowed then
        if method == ascii "OPTIONS" then .preflight else .methodNotAllowed
      else
        match v.notFound with
        | some view => .notFoundBy view []
        | none => .notFound

end Views

/-! ## The entries of a table -/

/-- A route as an application registers it. -/
inductive Registration (R W : Type*) where
  | read (method pattern : Bytes) (view : R) (onLoop : Bool)
  | write (method pattern : Bytes) (view : W) (onLoop : Bool)
  | resource (pattern : Bytes) (views : Resource R W)
  deriving Repr, DecidableEq

/-- One route of a table, its pattern as joined to the mount. -/
structure Entry (R W : Type*) where
  method : Bytes
  pattern : Bytes
  view : R ⊕ W
  onLoop : Bool
  deriving Repr, DecidableEq

namespace Entry

variable {R W : Type*}

def segments (e : Entry R W) : List PatternSegment :=
  (MojoHttp.segments e.pattern).map patternSegment

/-- The first entry of `es` for the request, by the router's rule. -/
def first (es : List (Entry R W)) (method path : Bytes) : Option (Entry R W) :=
  firstTaking Entry.method Entry.segments method (MojoHttp.segments path) es

/-- What the entry captures of a path. -/
def captured (e : Entry R W) (path : Bytes) : List Bytes :=
  captures e.segments (MojoHttp.segments path)

end Entry

namespace Resource

variable {R W : Type*}

/-- The routes of a resource, in the order they are registered. -/
def entries (r : Resource R W) (mount : Mount) (pattern : Bytes) : List (Entry R W) :=
  let item := pattern ++ RESOURCE_ITEM
  let itemEdit := pattern ++ RESOURCE_EDIT
  let reading (method pattern : Bytes) (view : Option R) : List (Entry R W) :=
    view.toList.map fun view => ⟨method, mount.join pattern, .inl view, false⟩
  let writing (method pattern : Bytes) (view : Option W) : List (Entry R W) :=
    view.toList.map fun view => ⟨method, mount.join pattern, .inr view, false⟩
  reading (ascii "GET") pattern r.listView ++
    reading (ascii "GET") (pattern ++ RESOURCE_NEW) r.newView ++
    writing (ascii "POST") pattern r.createView ++
    reading (ascii "GET") item r.showView ++
    reading (ascii "GET") itemEdit r.editView ++
    writing (ascii "PUT") item r.updateView ++
    writing (ascii "POST") itemEdit r.updateView ++
    writing (ascii "DELETE") item r.deleteView

end Resource

namespace Registration

variable {R W L : Type*}

def entries (mount : Mount) : Registration R W → List (Entry R W)
  | .read method pattern view onLoop => [⟨method, mount.join pattern, .inl view, onLoop⟩]
  | .write method pattern view onLoop => [⟨method, mount.join pattern, .inr view, onLoop⟩]
  | .resource pattern views => views.entries mount pattern

/-- The registration's call on a table. -/
def register (v : Views R W L) : Registration R W → Views R W L
  | .read method pattern view onLoop => v.addRead method pattern view onLoop
  | .write method pattern view onLoop => v.addWrite method pattern view onLoop
  | .resource pattern views => v.resource pattern views

end Registration

namespace Views

variable {R W L : Type*}

/-- The table an application's registrations build. -/
def build (mount : Mount) (regs : List (Registration R W)) : Views R W L :=
  regs.foldl Registration.register (Views.new mount)

/-- The routes of `es`, numbered in order. -/
def numbered (es : List (Entry R W)) : List Route :=
  es.zipIdx.map fun p => Router.newRoute p.1.method p.1.pattern p.2

/-- The table holds the entries `es`, in order, each with its view. -/
structure InTable (v : Views R W L) (es : List (Entry R W)) : Prop where
  built : v.router.Built
  routes : v.router.routes = numbered es
  length_isRead : v.isRead.length = es.length
  length_slot : v.slot.length = es.length
  views : ∀ h e, es[h]? = some e →
    v.stored (v.isRead.getD h false) (v.slot.getD h 0) = some e.view

/-- The loop's router holds the entries `es`, none of them stateless. -/
structure OnLoop (v : Views R W L) (es : List (Entry R W)) : Prop where
  built : v.loopRouter.Built
  routes : v.loopRouter.routes = numbered es
  length_loopKind : v.loopKind.length = es.length
  length_loopSlot : v.loopSlot.length = es.length
  views : ∀ h e, es[h]? = some e →
    ∃ b, (v.loopKind.getD h .stateless).isRead = some b ∧
      v.stored b (v.loopSlot.getD h 0) = some e.view

/-- The table holds the entries `es`, the loop's router those of them that are `on_loop`. -/
structure Holds (v : Views R W L) (es : List (Entry R W)) : Prop where
  inTable : v.InTable es
  onLoop : v.OnLoop (es.filter Entry.onLoop)

/-- What one table stores the other does too. -/
def Keeps (v v' : Views R W L) : Prop :=
  ∀ b s view, v.stored b s = some view → v'.stored b s = some view

theorem holds_new (mount : Mount) : (Views.new mount : Views R W L).Holds [] := by
  constructor
  · constructor
    case built => exact Router.built_empty
    all_goals simp [Views.new, numbered, Router.routes, Router.empty]
  · constructor
    case built => exact Router.built_empty
    all_goals simp [Views.new, numbered, Router.routes, Router.empty]

theorem numbered_snoc (es : List (Entry R W)) (e : Entry R W) :
    numbered (es ++ [e]) = numbered es ++ [Router.newRoute e.method e.pattern es.length] := by
  simp [numbered, List.zipIdx_append]

/-- A route goes in behind the others. -/
theorem InTable.snoc {v v' : Views R W L} {es : List (Entry R W)} {e : Entry R W} {b : Bool}
    {s : Nat} (h : v.InTable es) (hkeeps : v.Keeps v')
    (hrouter : v'.router = v.router.add e.method e.pattern v.isRead.length)
    (hisRead : v'.isRead = v.isRead ++ [b]) (hslot : v'.slot = v.slot ++ [s])
    (hview : v'.stored b s = some e.view) : v'.InTable (es ++ [e]) where
  built := hrouter ▸ Router.built_add h.built _ _ _
  routes := by rw [hrouter, h.built.routes_add, h.routes, numbered_snoc, h.length_isRead]
  length_isRead := by rw [hisRead, List.length_append, List.length_append, h.length_isRead]; rfl
  length_slot := by rw [hslot, List.length_append, List.length_append, h.length_slot]; rfl
  views := by
    intro i x hx
    have hr := h.length_isRead
    have hs := h.length_slot
    rw [hisRead, hslot]
    rcases Nat.lt_or_ge i es.length with hlt | hge
    · rw [List.getElem?_append_left hlt] at hx
      rw [List.getD_append _ _ _ _ (by omega), List.getD_append _ _ _ _ (by omega)]
      exact hkeeps _ _ _ (h.views i x hx)
    · rw [List.getElem?_append_right hge, List.getElem?_singleton] at hx
      split at hx
      · next heq =>
        have hi : i = es.length := by omega
        cases hx
        rw [Router.getD_snoc (hr.trans hi.symm), Router.getD_snoc (hs.trans hi.symm), hview]
      · cases hx

theorem OnLoop.snoc {v v' : Views R W L} {es : List (Entry R W)} {e : Entry R W} {k : LoopKind}
    {b : Bool} {s : Nat} (h : v.OnLoop es) (hkeeps : v.Keeps v')
    (hrouter : v'.loopRouter = v.loopRouter.add e.method e.pattern v.loopKind.length)
    (hkind : v'.loopKind = v.loopKind ++ [k]) (hslot : v'.loopSlot = v.loopSlot ++ [s])
    (hb : k.isRead = some b) (hview : v'.stored b s = some e.view) :
    v'.OnLoop (es ++ [e]) where
  built := hrouter ▸ Router.built_add h.built _ _ _
  routes := by rw [hrouter, h.built.routes_add, h.routes, numbered_snoc, h.length_loopKind]
  length_loopKind := by rw [hkind, List.length_append, List.length_append, h.length_loopKind]; rfl
  length_loopSlot := by rw [hslot, List.length_append, List.length_append, h.length_loopSlot]; rfl
  views := by
    intro i x hx
    have hk := h.length_loopKind
    have hs := h.length_loopSlot
    rw [hkind, hslot]
    rcases Nat.lt_or_ge i es.length with hlt | hge
    · rw [List.getElem?_append_left hlt] at hx
      rw [List.getD_append _ _ _ _ (by omega), List.getD_append _ _ _ _ (by omega)]
      have ⟨b', hb', hx'⟩ := h.views i x hx
      exact ⟨b', hb', hkeeps _ _ _ hx'⟩
    · rw [List.getElem?_append_right hge, List.getElem?_singleton] at hx
      split at hx
      · next heq =>
        have hi : i = es.length := by omega
        cases hx
        rw [Router.getD_snoc (hk.trans hi.symm), Router.getD_snoc (hs.trans hi.symm)]
        exact ⟨b, hb, hview⟩
      · cases hx

theorem OnLoop.kept {v v' : Views R W L} {es : List (Entry R W)} (h : v.OnLoop es)
    (hkeeps : v.Keeps v') (hrouter : v'.loopRouter = v.loopRouter)
    (hkind : v'.loopKind = v.loopKind) (hslot : v'.loopSlot = v.loopSlot) : v'.OnLoop es where
  built := hrouter ▸ h.built
  routes := hrouter ▸ h.routes
  length_loopKind := hkind ▸ h.length_loopKind
  length_loopSlot := hslot ▸ h.length_loopSlot
  views := by
    intro i x hx
    have ⟨b, hb, hx'⟩ := h.views i x hx
    rw [hkind, hslot]
    exact ⟨b, hb, hkeeps _ _ _ hx'⟩

theorem addRead_keeps (v : Views R W L) (method pattern : Bytes) (view : R) (onLoop : Bool) :
    v.Keeps (v.addRead method pattern view onLoop) := by
  have hreads : (v.addRead method pattern view onLoop).reads = v.reads ++ [view] := by
    cases onLoop <;> rfl
  have hwrites : (v.addRead method pattern view onLoop).writes = v.writes := by
    cases onLoop <;> rfl
  intro b s x hx
  cases b with
  | false => simpa [stored, hwrites] using hx
  | true =>
    simp only [stored, if_true, hreads, Option.map_eq_some_iff] at hx ⊢
    have ⟨a, ha, hax⟩ := hx
    have hs : s < v.reads.length := (List.getElem?_eq_some_iff.mp ha).1
    exact ⟨a, by rw [List.getElem?_append_left hs, ha], hax⟩

theorem addWrite_keeps (v : Views R W L) (method pattern : Bytes) (view : W) (onLoop : Bool) :
    v.Keeps (v.addWrite method pattern view onLoop) := by
  have hreads : (v.addWrite method pattern view onLoop).reads = v.reads := by
    cases onLoop <;> rfl
  have hwrites : (v.addWrite method pattern view onLoop).writes = v.writes ++ [view] := by
    cases onLoop <;> rfl
  intro b s x hx
  cases b with
  | true => simpa [stored, hreads] using hx
  | false =>
    simp only [stored, Bool.false_eq_true, if_false, hwrites, Option.map_eq_some_iff] at hx ⊢
    have ⟨a, ha, hax⟩ := hx
    have hs : s < v.writes.length := (List.getElem?_eq_some_iff.mp ha).1
    exact ⟨a, by rw [List.getElem?_append_left hs, ha], hax⟩

theorem addRead_stored (v : Views R W L) (method pattern : Bytes) (view : R) (onLoop : Bool) :
    (v.addRead method pattern view onLoop).stored true v.reads.length = some (.inl view) := by
  have hreads : (v.addRead method pattern view onLoop).reads = v.reads ++ [view] := by
    cases onLoop <;> rfl
  simp [stored, hreads]

theorem addWrite_stored (v : Views R W L) (method pattern : Bytes) (view : W) (onLoop : Bool) :
    (v.addWrite method pattern view onLoop).stored false v.writes.length = some (.inr view) := by
  have hwrites : (v.addWrite method pattern view onLoop).writes = v.writes ++ [view] := by
    cases onLoop <;> rfl
  simp [stored, hwrites]

theorem Holds.addRead {v : Views R W L} {es : List (Entry R W)} (h : v.Holds es)
    (method pattern : Bytes) (view : R) (onLoop : Bool) :
    (v.addRead method pattern view onLoop).Holds
      (es ++ [⟨method, v.mount.join pattern, .inl view, onLoop⟩]) := by
  have hkeeps := addRead_keeps v method pattern view onLoop
  have hview := addRead_stored v method pattern view onLoop
  constructor
  · exact h.inTable.snoc hkeeps (by cases onLoop <;> rfl) (by cases onLoop <;> rfl)
      (by cases onLoop <;> rfl) hview
  · rw [List.filter_append]
    cases onLoop with
    | false => exact (List.append_nil _).symm ▸ h.onLoop.kept hkeeps rfl rfl rfl
    | true => exact h.onLoop.snoc hkeeps rfl rfl rfl rfl hview

theorem Holds.addWrite {v : Views R W L} {es : List (Entry R W)} (h : v.Holds es)
    (method pattern : Bytes) (view : W) (onLoop : Bool) :
    (v.addWrite method pattern view onLoop).Holds
      (es ++ [⟨method, v.mount.join pattern, .inr view, onLoop⟩]) := by
  have hkeeps := addWrite_keeps v method pattern view onLoop
  have hview := addWrite_stored v method pattern view onLoop
  constructor
  · exact h.inTable.snoc hkeeps (by cases onLoop <;> rfl) (by cases onLoop <;> rfl)
      (by cases onLoop <;> rfl) hview
  · rw [List.filter_append]
    cases onLoop with
    | false => exact (List.append_nil _).symm ▸ h.onLoop.kept hkeeps rfl rfl rfl
    | true => exact h.onLoop.snoc hkeeps rfl rfl rfl rfl hview

@[simp] theorem mount_addRead (v : Views R W L) (method pattern : Bytes) (view : R)
    (onLoop : Bool) : (v.addRead method pattern view onLoop).mount = v.mount := by
  cases onLoop <;> rfl

@[simp] theorem mount_addWrite (v : Views R W L) (method pattern : Bytes) (view : W)
    (onLoop : Bool) : (v.addWrite method pattern view onLoop).mount = v.mount := by
  cases onLoop <;> rfl

/-- `v` holds `es` and sits under `mount`. -/
def HoldsUnder (mount : Mount) (v : Views R W L) (es : List (Entry R W)) : Prop :=
  v.Holds es ∧ v.mount = mount

theorem HoldsUnder.addReadIf {mount : Mount} {v : Views R W L} {es : List (Entry R W)}
    (h : HoldsUnder mount v es) (method pattern : Bytes) (view : Option R) :
    HoldsUnder mount (v.addReadIf method pattern view)
      (es ++ view.toList.map fun view => ⟨method, mount.join pattern, .inl view, false⟩) := by
  have ⟨hholds, hmount⟩ := h
  subst hmount
  cases view with
  | none => simpa [Views.addReadIf] using h
  | some view => exact ⟨hholds.addRead method pattern view false, rfl⟩

theorem HoldsUnder.addWriteIf {mount : Mount} {v : Views R W L} {es : List (Entry R W)}
    (h : HoldsUnder mount v es) (method pattern : Bytes) (view : Option W) :
    HoldsUnder mount (v.addWriteIf method pattern view)
      (es ++ view.toList.map fun view => ⟨method, mount.join pattern, .inr view, false⟩) := by
  have ⟨hholds, hmount⟩ := h
  subst hmount
  cases view with
  | none => simpa [Views.addWriteIf] using h
  | some view => exact ⟨hholds.addWrite method pattern view false, rfl⟩

theorem HoldsUnder.resource {mount : Mount} {v : Views R W L} {es : List (Entry R W)}
    (h : HoldsUnder mount v es) (pattern : Bytes) (r : Resource R W) :
    HoldsUnder mount (v.resource pattern r) (es ++ r.entries mount pattern) := by
  have hlist := h.addReadIf (ascii "GET") pattern r.listView
  have hnew := hlist.addReadIf (ascii "GET") (pattern ++ RESOURCE_NEW) r.newView
  have hcreate := hnew.addWriteIf (ascii "POST") pattern r.createView
  have hshow := hcreate.addReadIf (ascii "GET") (pattern ++ RESOURCE_ITEM) r.showView
  have hedit := hshow.addReadIf (ascii "GET") (pattern ++ RESOURCE_EDIT) r.editView
  have hput := hedit.addWriteIf (ascii "PUT") (pattern ++ RESOURCE_ITEM) r.updateView
  have hpost := hput.addWriteIf (ascii "POST") (pattern ++ RESOURCE_EDIT) r.updateView
  have hdelete := hpost.addWriteIf (ascii "DELETE") (pattern ++ RESOURCE_ITEM) r.deleteView
  simpa [Views.resource, Resource.entries, List.append_assoc] using hdelete

/-- One registration's routes go in behind the others. -/
theorem HoldsUnder.register {mount : Mount} {v : Views R W L} {es : List (Entry R W)}
    (h : HoldsUnder mount v es) (reg : Registration R W) :
    HoldsUnder mount (Registration.register v reg) (es ++ reg.entries mount) := by
  have ⟨hholds, hmount⟩ := h
  cases reg with
  | read method pattern view onLoop =>
    subst hmount
    exact ⟨hholds.addRead method pattern view onLoop, mount_addRead v method pattern view onLoop⟩
  | write method pattern view onLoop =>
    subst hmount
    exact ⟨hholds.addWrite method pattern view onLoop, mount_addWrite v method pattern view onLoop⟩
  | resource pattern views => exact h.resource pattern views

/-- The table of any list of registrations holds the routes they name, in order. -/
theorem holds_build (mount : Mount) (regs : List (Registration R W)) :
    (build mount regs : Views R W L).Holds (regs.flatMap (Registration.entries mount)) := by
  have hrun : ∀ (v : Views R W L) (es : List (Entry R W)), HoldsUnder mount v es →
      HoldsUnder mount (regs.foldl Registration.register v)
        (es ++ regs.flatMap (Registration.entries mount)) := by
    induction regs with
    | nil =>
      intro v es h
      simpa using h
    | cons reg regs ih =>
      intro v es h
      have := ih _ _ (h.register reg)
      simpa [List.append_assoc] using this
  have := hrun (Views.new mount) [] ⟨holds_new mount, rfl⟩
  simpa [build] using this.1

/-! ## What answers a request -/

/-- The call of an entry's view on a path. -/
def callEntry (e : Entry R W) (path : Bytes) : Answer R W L := call (some e.view) (e.captured path)

/-- `match` on numbered routes finds the first entry for the request, by its number. -/
theorem match_numbered {rt : Router} (hbuilt : rt.Built) {es : List (Entry R W)}
    (hroutes : rt.routes = numbered es) (method path : Bytes) :
    (∃ h e, Entry.first es method path = some e ∧ es[h]? = some e ∧
      rt.matchRoute method path = .found h (e.captured path)) ∨
    (Entry.first es method path = none ∧
      (rt.matchRoute method path = .methodNotAllowed ∨ rt.matchRoute method path = .notFound)) := by
  have hfirst : Entry.first es method path =
      (firstTaking (Entry.method ∘ Prod.fst) (Entry.segments ∘ Prod.fst) method (segments path)
        es.zipIdx).map Prod.fst := by
    rw [← firstTaking_map, List.zipIdx_map_fst]
    rfl
  rw [hbuilt.match_eq, hroutes, numbered, firstTaking_map, hfirst]
  have hsame : firstTaking
      (Route.method ∘ fun p : Entry R W × Nat => Router.newRoute p.1.method p.1.pattern p.2)
      (Route.pattern ∘ fun p : Entry R W × Nat => Router.newRoute p.1.method p.1.pattern p.2)
      method (segments path) es.zipIdx =
        firstTaking (Entry.method ∘ Prod.fst) (Entry.segments ∘ Prod.fst) method (segments path)
          es.zipIdx := rfl
  rw [hsame]
  cases hp : firstTaking (Entry.method ∘ Prod.fst) (Entry.segments ∘ Prod.fst) method
      (segments path) es.zipIdx with
  | none =>
    refine Or.inr ⟨rfl, ?_⟩
    simp only [Option.map_none]
    split
    · exact Or.inl rfl
    · exact Or.inr rfl
  | some p =>
    have hmem := List.mem_zipIdx_iff_getElem?.mp (mem_of_firstTaking hp)
    exact Or.inl ⟨p.2, p.1, rfl, hmem, rfl⟩

/-- `dispatch` calls the view of the first entry taking the request. -/
theorem Holds.dispatch_eq {v : Views R W L} {es : List (Entry R W)} (h : v.Holds es)
    {method path : Bytes} {e : Entry R W} (he : Entry.first es method path = some e) :
    v.dispatch method path = callEntry e path := by
  rcases match_numbered h.inTable.built h.inTable.routes method path with
    ⟨i, e', hfirst, hat, hmatch⟩ | ⟨hnone, _⟩
  · rw [he, Option.some.injEq] at hfirst
    subst hfirst
    rw [dispatch, hmatch]
    simp only
    rw [h.inTable.views i e hat, callEntry]
  · rw [he] at hnone
    cases hnone

/-- The loop calls the view of the first `on_loop` entry taking the request, if there is one. -/
theorem Holds.answerOnLoop_eq {v : Views R W L} {es : List (Entry R W)} (h : v.Holds es)
    (method path : Bytes) :
    v.answerOnLoop method path =
      (Entry.first (es.filter Entry.onLoop) method path).map fun e => callEntry e path := by
  rcases match_numbered h.onLoop.built h.onLoop.routes method path with
    ⟨i, e, hfirst, hat, hmatch⟩ | ⟨hnone, hmiss⟩
  · have hpos : v.loopKind.length ≠ 0 := by
      rw [h.onLoop.length_loopKind]
      have := (List.getElem?_eq_some_iff.mp hat).1
      omega
    have ⟨b, hb, hview⟩ := h.onLoop.views i e hat
    rw [answerOnLoop, if_neg (by simpa using hpos), hmatch, hfirst]
    simp only
    cases hkind : v.loopKind.getD i .stateless with
    | stateless =>
      rw [hkind] at hb
      cases hb
    | read =>
      rw [hkind] at hb
      cases hb
      rw [hview]
      rfl
    | write =>
      rw [hkind] at hb
      cases hb
      rw [hview]
      rfl
  · rw [answerOnLoop, hnone]
    split
    · rfl
    · rcases hmiss with hmiss | hmiss <;> rw [hmiss] <;> rfl

theorem callEntry_eq_iff (e e' : Entry R W) (path : Bytes) :
    (callEntry e path : Answer R W L) = callEntry e' path ↔
      e.view = e'.view ∧ e.captured path = e'.captured path := by
  unfold callEntry call
  cases e.view with
  | inl view => cases e'.view with
    | inl view' => simp
    | inr view' => simp
  | inr view => cases e'.view with
    | inl view' => simp
    | inr view' => simp

end Views

end MojoHttp
