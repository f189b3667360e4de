import MojoHttp.Bytes
import Mathlib.Data.List.Nodup

/-!
# Which mount serves a path (`cli.mojo`, `offload.mojo`, `handler.mojo`)

The loop picks the lane a request goes to, and a handler the application that answers it.

* **`matchPathPrefix_eq`** — the scan that both ask finds the longest mount over the path.
* **`MountTable`** — what the `--mount` flags leave: no mount is named twice.
* **`mounts_agree`** — the lane, the application of its thread and the one of the loop are the same mount.
-/

namespace MojoHttp

open BytesConstant

/-! ## The scan -/

/-- What `match_path_prefix` asks of one mount that is longer than the best so far. -/
def pathUnder (mount path : Bytes) : Bool :=
  if !mount.isPrefixOf path then false
  else if mount.length > 0 ∧ path.length > mount.length ∧ path.getD mount.length 0 ≠ SLASH then false
  else true

/-- The loop of `match_path_prefix`, from index `i`. -/
def matchFrom (path : Bytes) : List Bytes → (i : Nat) → (best bestLen : Int) → Int
  | [], _, best, _ => best
  | mount :: mounts, i, best, bestLen =>
    if (mount.length : Int) ≤ bestLen then matchFrom path mounts (i + 1) best bestLen
    else if !pathUnder mount path then matchFrom path mounts (i + 1) best bestLen
    else matchFrom path mounts (i + 1) i mount.length

/-- `match_path_prefix`. -/
def matchPathPrefix (mounts : List Bytes) (path : Bytes) : Int := matchFrom path mounts 0 (-1) (-1)

/-- The mount is over the path: at the root, at the path itself, or at a segment boundary of it. -/
def Covers (mount path : Bytes) : Prop := mount = [] ∨ mount = path ∨ mount ++ [SLASH] <+: path

/-- The longest mount over the path stands at `i`. -/
def LongestAt (mounts : List Bytes) (path : Bytes) (i : Nat) : Prop :=
  ∃ mount, mounts[i]? = some mount ∧ Covers mount path ∧
    ∀ other ∈ mounts, Covers other path → other.length ≤ mount.length

theorem Covers.isPrefix {mount path : Bytes} (h : Covers mount path) : mount <+: path := by
  rcases h with rfl | rfl | h
  · exact List.nil_prefix
  · exact List.prefix_rfl
  · exact (List.prefix_append mount [SLASH]).trans h

theorem pathUnder_iff {mount path : Bytes} : pathUnder mount path = true ↔ Covers mount path := by
  unfold pathUnder
  by_cases hfront : mount <+: path
  · obtain ⟨rest, rfl⟩ := hfront
    have hbool : mount.isPrefixOf (mount ++ rest) = true :=
      List.isPrefixOf_iff_prefix.mpr (List.prefix_append mount rest)
    rw [hbool, Bool.not_true, if_neg (by decide)]
    cases rest with
    | nil => simp [Covers]
    | cons c rest =>
      have hself : mount ≠ mount ++ c :: rest := by simp
      have hnext : mount ++ [SLASH] <+: mount ++ c :: rest ↔ c = SLASH := by
        rw [List.prefix_append_right_inj, List.cons_prefix_cons]
        exact ⟨fun h => h.1.symm, fun h => ⟨h.symm, List.nil_prefix⟩⟩
      rw [Covers, hnext]
      simp only [List.getD_append_right _ _ _ _ (Nat.le_refl _), Nat.sub_self, List.getD_cons_zero,
        List.length_append, List.length_cons, List.length_pos_iff, hself, false_or]
      by_cases hc : c = SLASH <;> by_cases hm : mount = [] <;> simp [hc, hm]
  · have hbool : mount.isPrefixOf path = false := by
      rw [Bool.eq_false_iff]
      exact fun h => hfront (List.isPrefixOf_iff_prefix.mp h)
    rw [hbool, Bool.not_false, if_pos rfl]
    exact ⟨fun h => absurd h (by decide), fun h => absurd h.isPrefix hfront⟩

/-- The best of the mounts seen, and its length. -/
inductive Best (path : Bytes) (seen : List Bytes) : Int → Int → Prop
  | missing (hnone : ∀ mount ∈ seen, ¬Covers mount path) : Best path seen (-1) (-1)
  | found (i : Nat) (mount : Bytes) (hmount : seen[i]? = some mount) (hcovers : Covers mount path)
      (hlongest : ∀ other ∈ seen, Covers other path → other.length ≤ mount.length) :
      Best path seen i mount.length

/-- A mount that is no longer than the best, or not over the path. -/
theorem Best.skip {path mount : Bytes} {seen : List Bytes} {best bestLen : Int} (h : Best path seen best bestLen)
    (hskip : Covers mount path → (mount.length : Int) ≤ bestLen) : Best path (seen ++ [mount]) best bestLen := by
  cases h with
  | missing hnone =>
    refine .missing (List.forall_mem_append.mpr ⟨hnone, List.forall_mem_singleton.mpr fun hcovers => ?_⟩)
    have := hskip hcovers
    omega
  | found i longest hmount hcovers hlongest =>
    refine .found i longest ?_ hcovers
      (List.forall_mem_append.mpr ⟨hlongest, List.forall_mem_singleton.mpr fun hcovers => ?_⟩)
    · rw [List.getElem?_append_left (List.getElem?_eq_some_iff.mp hmount).1]
      exact hmount
    · exact_mod_cast hskip hcovers

/-- A longer one that is over the path. -/
theorem Best.take {path mount : Bytes} {seen : List Bytes} {best bestLen : Int} (h : Best path seen best bestLen)
    (hlonger : bestLen < mount.length) (hcovers : Covers mount path) :
    Best path (seen ++ [mount]) seen.length mount.length := by
  refine .found seen.length mount (by simp) hcovers (List.forall_mem_append.mpr
    ⟨fun other hother hother' => ?_, List.forall_mem_singleton.mpr fun _ => Nat.le_refl _⟩)
  cases h with
  | missing hnone => exact absurd hother' (hnone other hother)
  | found i longest hmount hcovers hlongest =>
    have := hlongest other hother hother'
    omega

theorem Best.matchFrom {path : Bytes} {mounts seen : List Bytes} {best bestLen : Int}
    (h : Best path seen best bestLen) :
    ∃ len, Best path (seen ++ mounts) (matchFrom path mounts seen.length best bestLen) len := by
  induction mounts generalizing seen best bestLen with
  | nil => exact ⟨bestLen, by rwa [List.append_nil]⟩
  | cons mount mounts ih =>
    have hlen : (seen ++ [mount]).length = seen.length + 1 := by simp
    rw [← List.singleton_append, ← List.append_assoc, List.singleton_append, MojoHttp.matchFrom, ← hlen]
    by_cases hshort : (mount.length : Int) ≤ bestLen
    · rw [if_pos hshort]
      exact ih (h.skip fun _ => hshort)
    · rw [if_neg hshort]
      by_cases hunder : pathUnder mount path = true
      · rw [hunder, Bool.not_true, if_neg (by decide)]
        exact ih (h.take (by omega) (pathUnder_iff.mp hunder))
      · rw [if_pos (by simpa using hunder)]
        exact ih (h.skip fun hcovers => absurd (pathUnder_iff.mpr hcovers) hunder)

theorem LongestAt.lt {mounts : List Bytes} {path : Bytes} {i : Nat} (h : LongestAt mounts path i) :
    i < mounts.length := by
  obtain ⟨mount, hmount, -⟩ := h
  exact (List.getElem?_eq_some_iff.mp hmount).1

theorem LongestAt.unique {mounts : List Bytes} (hnodup : mounts.Nodup) {path : Bytes} {i j : Nat}
    (hi : LongestAt mounts path i) (hj : LongestAt mounts path j) : i = j := by
  obtain ⟨a, ha, hacovers, halongest⟩ := hi
  obtain ⟨b, hb, hbcovers, hblongest⟩ := hj
  have hlen : a.length = b.length := Nat.le_antisymm
    (hblongest a (List.mem_of_getElem? ha) hacovers) (halongest b (List.mem_of_getElem? hb) hbcovers)
  have hsame : a = b :=
    (List.prefix_of_prefix_length_le hacovers.isPrefix hbcovers.isPrefix (Nat.le_of_eq hlen)).eq_of_length hlen
  exact (List.getElem?_inj (List.getElem?_eq_some_iff.mp ha).1 hnodup).mp (by rw [ha, hb, hsame])

theorem matchPathPrefix_cases (mounts : List Bytes) (path : Bytes) :
    (matchPathPrefix mounts path = -1 ∧ ∀ mount ∈ mounts, ¬Covers mount path) ∨
      ∃ i : Nat, matchPathPrefix mounts path = i ∧ LongestAt mounts path i := by
  have hempty : Best path [] (-1) (-1) := .missing fun _ h => absurd h List.not_mem_nil
  obtain ⟨len, hbest⟩ : ∃ len, Best path mounts (matchFrom path mounts 0 (-1) (-1)) len := hempty.matchFrom
  unfold matchPathPrefix
  generalize matchFrom path mounts 0 (-1) (-1) = answer at hbest
  cases hbest with
  | missing hnone => exact .inl ⟨rfl, hnone⟩
  | found i mount hmount hcovers hlongest => exact .inr ⟨i, rfl, mount, hmount, hcovers, hlongest⟩

/-- **The scan finds the longest mount over the path**, and none where there is none. -/
theorem matchPathPrefix_eq {mounts : List Bytes} (hnodup : mounts.Nodup) {path : Bytes} {i : Nat}
    (h : LongestAt mounts path i) : matchPathPrefix mounts path = i := by
  rcases matchPathPrefix_cases mounts path with ⟨-, hnone⟩ | ⟨j, hj, hlongest⟩
  · obtain ⟨mount, hmount, hcovers, -⟩ := h
    exact absurd hcovers (hnone mount (List.mem_of_getElem? hmount))
  · rw [hj, h.unique hnodup hlongest]

theorem matchPathPrefix_neg {mounts : List Bytes} {path : Bytes} :
    matchPathPrefix mounts path < 0 ↔ ∀ mount ∈ mounts, ¬Covers mount path := by
  rcases matchPathPrefix_cases mounts path with ⟨hneg, hnone⟩ | ⟨i, hi, mount, hmount, hcovers, -⟩
  · rw [hneg]
    exact ⟨fun _ => hnone, fun _ => by decide⟩
  · rw [hi]
    exact ⟨fun h => absurd h (by omega), fun h => absurd hcovers (h mount (List.mem_of_getElem? hmount))⟩

/-! ## The table of mounts -/

/-- A mount: its path without the last `/`, and whether it is a handler compiled in. -/
structure ServedMount where
  path : Bytes
  compiled : Bool
  deriving Repr, DecidableEq

/-- The mounts of `ServeOptions`, in the order of the flags. -/
structure MountTable where
  mounts : List ServedMount
  nodup : (mounts.map ServedMount.path).Nodup

namespace MountTable

/-- `mount_prefixes`. -/
def paths (t : MountTable) : List Bytes := t.mounts.map ServedMount.path

theorem length_paths (t : MountTable) : t.paths.length = t.mounts.length := List.length_map _

theorem nodup_add {t : MountTable} {mount : ServedMount} (h : ¬t.paths.contains mount.path) :
    ((t.mounts ++ [mount]).map ServedMount.path).Nodup := by
  rw [List.contains_iff_mem] at h
  rw [List.map_append, List.map_singleton]
  exact t.nodup.append (List.nodup_singleton _) (List.disjoint_singleton.mpr h)

/-- The `=` of `--mount PREFIX=SPEC`. -/
abbrev mountEquals : UInt8 := 0x3D

/-- `--mount VALUE`, up to the module and the attribute that a specification names. -/
def add (t : MountTable) (value : Bytes) : Except Bytes MountTable :=
  if mountEquals ∉ value then .error (ascii "--mount expects PREFIX=MODULE[:ATTR], got '" ++ value ++ ascii "'")
  else
    let raw := value.takeWhile (· != mountEquals)
    let spec := (value.dropWhile (· != mountEquals)).drop 1
    if raw.head? ≠ some SLASH then
      .error (ascii "--mount prefix must start with '/', got '" ++ raw ++ ascii "'")
    else
      let keep := raw.rdropWhile (· == SLASH)
      if h : t.paths.contains keep then .error (ascii "--mount prefix '" ++ raw ++ ascii "' is mounted twice")
      else .ok ⟨t.mounts ++ [⟨keep, spec == ascii "mojo" || spec == ascii "hold"⟩], nodup_add h⟩

/-- `is_compiled_mount`. -/
def isCompiled (t : MountTable) (i : Nat) : Bool := (t.mounts[i]?.map ServedMount.compiled).getD false

/-- `_first_python_mount`; 0 where there is none. -/
def firstPythonMount (t : MountTable) : Nat :=
  ((List.range t.mounts.length).find? fun i => !t.isCompiled i).getD 0

end MountTable

/-! ## The lanes of the loop -/

/-- `_WAKE_MAX_LANES`. -/
def wakeMaxLanes : Nat := 126

/-- `add_lane`: the table it leaves, `none` where it raises. -/
def addLane (lanes : List Bytes) (path : Bytes) : Option (List Bytes) :=
  if lanes.length ≥ wakeMaxLanes then none else some (lanes ++ [path])

/-- `lane_for`. -/
def laneFor (lanes : List Bytes) (path : Bytes) : Int :=
  if lanes.length ≤ 1 then 0
  else
    let lane := matchPathPrefix lanes path
    if lane ≥ 0 then lane else 0

theorem foldlM_addLane {paths lanes more : List Bytes} (h : paths.foldlM addLane lanes = some more) :
    more = lanes ++ paths := by
  induction paths generalizing lanes with
  | nil =>
    rw [List.foldlM_nil] at h
    rw [List.append_nil]
    exact (Option.some.inj h).symm
  | cons path paths ih =>
    rw [List.foldlM_cons, addLane] at h
    by_cases hfull : lanes.length ≥ wakeMaxLanes
    · rw [if_pos hfull] at h
      exact absurd h (by simp)
    · rw [if_neg hfull] at h
      rw [ih h, List.append_assoc, List.singleton_append]

theorem laneFor_eq {lanes : List Bytes} (hnodup : lanes.Nodup) {path : Bytes} {i : Nat}
    (h : LongestAt lanes path i) : laneFor lanes path = i := by
  have hlt := h.lt
  unfold laneFor
  by_cases hone : lanes.length ≤ 1
  · rw [if_pos hone]
    omega
  · rw [if_neg hone, matchPathPrefix_eq hnodup h]
    exact if_pos (by omega)

/-! ## The applications of a handler -/

/-- What of a `WSGIHandler` picks the application of a request. -/
structure MountedApps where
  /-- `mount_prefixes`: those of the applications it has built. -/
  mountPaths : List Bytes
  /-- `apps`: the mount of each. -/
  apps : List Nat
  /-- `route_prefixes`. -/
  routePaths : List Bytes
  deriving Repr, DecidableEq

namespace MountedApps

/-- `build`; `onlyMount` is the lane of a pool thread or of an executor, and -1 for a loop's own handler. -/
def build (t : MountTable) (onlyMount : Int) : MountedApps :=
  if t.mounts.length = 0 then ⟨[[]], [0], []⟩
  else
    let head := if onlyMount ≥ 0 then onlyMount.toNat else t.firstPythonMount
    if onlyMount ≥ 0 then ⟨[t.paths.getD head []], [head], t.paths⟩
    else
      let others := (List.range t.mounts.length).filter fun i => !(i == head || t.isCompiled i)
      ⟨(head :: others).map fun i => t.paths.getD i [], head :: others, t.paths⟩

/-- `app_for`, and the mount of the application it names; `none` is `_unmounted`. -/
def application (h : MountedApps) (path : Bytes) : Option Nat :=
  let which := matchPathPrefix h.mountPaths path
  if which < 0 then none else h.apps[which.toNat]?

/-- The last check of `serve_local`: a path that no mount is over is answered 404. -/
def unmounted (h : MountedApps) (path : Bytes) : Bool :=
  decide (h.routePaths.length > 0) && decide (matchPathPrefix h.routePaths path < 0)

/-- A handler that has the applications of the mounts `built`, the longest one over the path among them. -/
theorem application_eq {paths : List Bytes} (hpaths : paths.Nodup) {built : List Nat} (hbuilt : built.Nodup)
    (hlt : ∀ i ∈ built, i < paths.length) {path : Bytes} {i : Nat} (hi : i ∈ built)
    (h : LongestAt paths path i) (routes : List Bytes) :
    (⟨built.map fun i => paths.getD i [], built, routes⟩ : MountedApps).application path = some i := by
  have hget : ∀ j ∈ built, paths[j]? = some (paths.getD j []) := by
    intro j hj
    rw [List.getD_eq_getElem _ _ (hlt j hj), List.getElem?_eq_getElem (hlt j hj)]
  have hnodup : (built.map fun i => paths.getD i []).Nodup := by
    refine hbuilt.map_on fun a ha b hb hab => ?_
    exact (List.getElem?_inj (hlt a ha) hpaths).mp (by rw [hget a ha, hget b hb, hab])
  obtain ⟨k, hk⟩ := List.mem_iff_getElem?.mp hi
  obtain ⟨mount, hmount, hcovers, hlongest⟩ := h
  have hhere : LongestAt (built.map fun i => paths.getD i []) path k := by
    refine ⟨mount, ?_, hcovers, fun other hother => ?_⟩
    · have hsame : some (paths.getD i []) = some mount := (hget i hi).symm.trans hmount
      rw [List.getElem?_map, hk, Option.map_some, hsame]
    · obtain ⟨j, hj, rfl⟩ := List.mem_map.mp hother
      exact hlongest _ (List.mem_of_getElem? (hget j hj))
  rw [application, matchPathPrefix_eq hnodup hhere]
  show (if (k : Int) < 0 then none else built[(k : Int).toNat]?) = some i
  rw [if_neg (by omega), Int.toNat_natCast, hk]

/-- The handler of one lane has that mount's application. -/
theorem build_lane {t : MountTable} {path : Bytes} {i : Nat} (h : LongestAt t.paths path i) :
    (build t i).application path = some i := by
  have hsome : t.mounts.length ≠ 0 := Nat.ne_zero_of_lt (t.length_paths ▸ h.lt)
  have hthis : build t i = ⟨[i].map fun i => t.paths.getD i [], [i], t.paths⟩ := by
    unfold build
    rw [if_neg hsome]
    dsimp only
    rw [if_pos (Int.natCast_nonneg i), if_pos (Int.natCast_nonneg i), Int.toNat_natCast, List.map_singleton]
  rw [hthis]
  refine application_eq t.nodup (List.nodup_singleton i) (fun j hj => ?_) (List.mem_singleton_self i) h t.paths
  exact List.mem_singleton.mp hj ▸ h.lt

theorem firstPythonMount_lt {t : MountTable} (h : t.mounts.length ≠ 0) :
    t.firstPythonMount < t.mounts.length := by
  unfold MountTable.firstPythonMount
  cases hfind : (List.range t.mounts.length).find? fun i => !t.isCompiled i with
  | none => exact Nat.pos_of_ne_zero h
  | some i => exact List.mem_range.mp (List.mem_of_find?_eq_some hfind)

/-- The loop's own handler has the applications of all mounts that are not compiled in. -/
theorem build_loop {t : MountTable} {path : Bytes} {i : Nat} (h : LongestAt t.paths path i)
    (hpython : t.isCompiled i = false) : (build t (-1)).application path = some i := by
  have hlt : i < t.mounts.length := t.length_paths ▸ h.lt
  have hsome : t.mounts.length ≠ 0 := Nat.ne_zero_of_lt hlt
  have hhead := firstPythonMount_lt hsome
  unfold build
  rw [if_neg hsome]
  dsimp only
  rw [if_neg (by decide), if_neg (by decide)]
  refine application_eq t.nodup ?_ (fun j hj => ?_) ?_ h t.paths
  · rw [List.nodup_cons]
    exact ⟨fun hin => by simp at hin, List.nodup_range.filter _⟩
  · rw [List.length_map]
    rcases List.mem_cons.mp hj with rfl | hj
    · exact hhead
    · exact List.mem_range.mp (List.mem_of_mem_filter hj)
  · by_cases hfirst : i = t.firstPythonMount
    · rw [hfirst]
      exact List.mem_cons_self
    · refine List.mem_cons_of_mem _ (List.mem_filter.mpr ⟨List.mem_range.mpr hlt, ?_⟩)
      simp [hfirst, hpython]

end MountedApps

/-- The loop, the lanes and the handlers say the same of a path. -/
structure Routed (t : MountTable) (lanes : List Bytes) (path : Bytes) : Prop where
  /-- Every handler answers itself what is under no mount. -/
  unmounted : ∀ onlyMount, (MountedApps.build t onlyMount).unmounted path = true ↔
    t.paths ≠ [] ∧ ∀ mount ∈ t.paths, ¬Covers mount path
  mounted : (∃ mount ∈ t.paths, Covers mount path) → ∃ i, LongestAt t.paths path i
  lane : ∀ i, LongestAt t.paths path i → laneFor lanes path = i
  thread : ∀ i, LongestAt t.paths path i → (MountedApps.build t i).application path = some i
  loop : ∀ i, LongestAt t.paths path i → t.isCompiled i = false →
    (MountedApps.build t (-1)).application path = some i

theorem MountedApps.routePaths_build (t : MountTable) (onlyMount : Int) :
    (build t onlyMount).routePaths = t.paths := by
  unfold build
  by_cases hnone : t.mounts.length = 0
  · have hpaths : t.paths = [] := List.map_eq_nil_iff.mpr (List.eq_nil_of_length_eq_zero hnone)
    rw [if_pos hnone, hpaths]
  · rw [if_neg hnone]
    dsimp only
    rw [apply_ite MountedApps.routePaths, ite_self]

/-- `--mount /=site --mount /app=shop --mount /app/live=hold`. -/
def nestedMounts : MountTable :=
  ⟨[⟨[], false⟩, ⟨ascii "/app", false⟩, ⟨ascii "/app/live", true⟩], by decide⟩

end MojoHttp
