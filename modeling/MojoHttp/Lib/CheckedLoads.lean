import Mathlib.Data.List.Basic
import Mathlib.Data.List.GetD
import MojoHttp.Lib.LaneScan

/-!
# Loads that are checked

A scan reads memory by vector loads at offsets of its own making, and nothing but its own
arithmetic keeps a load inside what it was given. Here a load names its offset and width, and
one that leaves the readable elements answers `none`, which no continuation recovers from: a
scan that answers `some` made no load outside.

* **`load`** — `W` elements from an offset on, or `none`.
* **`vectorLoop_eq`** — a loop of checked loads is the loop over positions (`laneLoop`), when
  the room it asks for is the room its loads need.
* **`byteLoop_eq`** — so is the tail that goes an element at a time.
-/

namespace CheckedLoads

open LaneScan

variable {α : Type}

/-- `ptr.unsafe_offset(i).unsafe_load[width=W]()` where `mem` is what may be read. -/
def load (mem : List α) (W : Nat) (i : Int) : Option (List α) :=
  if 0 ≤ i ∧ i + W ≤ mem.length then some ((mem.drop i.toNat).take W) else none

/-- `ptr[unsafe_offset=i]`. -/
def loadOne (mem : List α) (i : Int) : Option α :=
  if 0 ≤ i then mem[i.toNat]? else none

/-- What a load inside reads, position by position. -/
theorem load_eq {mem : List α} {W i : Nat} (h : i + W ≤ mem.length) (d : α) :
    load mem W i = some ((List.range W).map fun k => mem.getD (i + k) d) := by
  rw [load, if_pos ⟨by omega, by omega⟩, Int.toNat_natCast]
  congr 1
  apply List.ext_getElem
  · simp
    omega
  · intro k hk _
    have hkW : k < W := by simp at hk; omega
    rw [List.getElem_take, List.getElem_drop, List.getElem_map, List.getElem_range,
      List.getD_eq_getElem _ _ (by omega)]

/-- What a load inside reads, as a piece of the memory. -/
theorem load_eq_slice {mem : List α} {W i : Nat} (h : i + W ≤ mem.length) :
    load mem W i = some ((mem.drop i).take W) := by
  rw [load, if_pos ⟨by omega, by omega⟩, Int.toNat_natCast]

theorem loadOne_eq {mem : List α} {i : Nat} (h : i < mem.length) (d : α) :
    loadOne mem i = some (mem.getD i d) := by
  rw [loadOne, if_pos (by omega), Int.toNat_natCast, List.getElem?_eq_getElem h,
    List.getD_eq_getElem _ _ h]

/-- A mask computed lane by lane is the mask of the vector's positions. -/
theorem map_range_eq_laneMask (hit : Nat → Bool) (W i : Nat) :
    ((List.range W).map fun k => hit (i + k)) = laneMask hit W i := by
  induction W generalizing i with
  | zero => rfl
  | succ W ih =>
    rw [List.range_succ_eq_map, List.map_cons, List.map_map, laneMask, ← ih (i + 1)]
    congr 1
    apply List.map_congr_left
    intro k _
    show hit (i + (k + 1)) = hit (i + 1 + k)
    rw [Nat.add_assoc, Nat.add_comm 1]

/-! ## The loops -/

/-- `while room(i): lane = first_lane(lanes(i)); if lane >= 0: return i + lane; i += W`: the
position found, or the `i` the loop left with. `none` is a load outside, or turns running
out. -/
def vectorLoop (W : Nat) (room : Nat → Bool) (lanes : Nat → Option (List Bool)) :
    (fuel i : Nat) → Option (Nat ⊕ Nat)
  | 0, _ => none
  | fuel + 1, i =>
    if room i then do
      let mask ← lanes i
      match firstLane mask with
      | some lane => some (.inl (i + lane))
      | none => vectorLoop W room lanes fuel (i + W)
    else some (.inr i)

/-- `while i < n: if hit(i): return i; i += 1`, with `left = n - i` turns to go. -/
def byteLoop (hit : Nat → Option Bool) : (left i : Nat) → Option (Option Nat)
  | 0, _ => some none
  | left + 1, i => do
    if (← hit i) then some (some i) else byteLoop hit left (i + 1)

/-- **A loop of checked loads is the loop over positions**, with turns enough for the range. -/
theorem vectorLoop_eq {W : Nat} {room hit : Nat → Bool} {lanes : Nat → Option (List Bool)}
    (hi : Nat) (hW : 0 < W) {fuel i : Nat}
    (hlanes : ∀ j, i ≤ j → room j = true → j + W ≤ hi ∧ lanes j = some (laneMask hit W j))
    (hfuel : hi ≤ i + fuel) :
    vectorLoop W room lanes (fuel + 1) i = some (laneLoop W room hit fuel i) := by
  induction fuel generalizing i with
  | zero =>
    have hroom : ¬ room i = true := fun h => by have := (hlanes i (Nat.le_refl _) h).1; omega
    rw [vectorLoop, if_neg hroom, laneLoop]
  | succ fuel ih =>
    by_cases hroom : room i = true
    · obtain ⟨hfit, hmask⟩ := hlanes i (Nat.le_refl _) hroom
      rw [vectorLoop, if_pos hroom, laneLoop, if_pos hroom, hmask]
      show (match firstLane (laneMask hit W i) with
          | some lane => some (Sum.inl (i + lane))
          | none => vectorLoop W room lanes (fuel + 1) (i + W)) = _
      cases firstLane (laneMask hit W i) with
      | some lane => rfl
      | none => exact ih (fun j hj => hlanes j (by omega)) (by omega)
    · rw [vectorLoop, if_neg hroom, laneLoop, if_neg hroom]

theorem byteLoop_eq {hit : Nat → Option Bool} {hit' : Nat → Bool} {left i : Nat}
    (h : ∀ j, i ≤ j → j < i + left → hit j = some (hit' j)) :
    byteLoop hit left i = some (firstFrom hit' left i) := by
  induction left generalizing i with
  | zero => rfl
  | succ left ih =>
    rw [byteLoop, h i (Nat.le_refl _) (by omega), firstFrom]
    show (if hit' i = true then some (some i) else byteLoop hit left (i + 1)) = _
    rw [ih (fun j h1 h2 => h j (by omega) (by omega))]
    split
    · rfl
    · rfl

end CheckedLoads
