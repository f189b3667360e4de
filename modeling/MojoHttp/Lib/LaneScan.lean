import Mathlib.Data.List.Basic

/-!
# Lane scans: a vector search against a byte-at-a-time one

A SIMD search asks one question of `W` consecutive positions at once, takes the first lane
that answers yes, and moves `W` on. What is left of the range past the last whole vector is
searched narrower, and in the end one position at a time. Everything here is stated on a
predicate `hit : Nat → Bool` of positions, so the same loop serves a search for a byte, for
a byte class, or for a pattern that several shifted loads compare.

* **`firstLane`** — the first true lane of a mask, as the vector code computes it: `select`
  of an `iota` against a sentinel, then the minimum.
* **`firstFrom`** — the byte-at-a-time search, the reference.
* **`laneLoop`** — the vector loop: the position found, or where it gave up.
* **`firstFrom_of_laneLoop`** — a vector loop followed by the reference search from where it
  gave up is the reference search from the start. Loops compose by applying it once each.
-/

namespace LaneScan

/-! ## The first lane of a mask -/

/-- The sentinel of a lane that is not set; above every lane index of a vector. -/
def noLane : Nat := 255

/-- `select(mask, iota, noLane).reduce_min()`, from lane number `k` on. -/
def minLane : Nat → List Bool → Nat
  | _, [] => noLane
  | k, m :: ms => min (if m then k else noLane) (minLane (k + 1) ms)

/-- The index of the first true lane of `mask`, or `none` if there is none. -/
def firstLane (mask : List Bool) : Option Nat :=
  let lane := minLane 0 mask
  if lane = noLane then none else some lane

theorem minLane_ge (mask : List Bool) (k : Nat) (hk : k + mask.length ≤ noLane) :
    k ≤ minLane k mask := by
  induction mask generalizing k with
  | nil => simpa [minLane] using hk
  | cons m ms ih =>
    have hlen : k + 1 + ms.length ≤ noLane := by simpa [Nat.add_assoc, Nat.add_comm 1] using hk
    have hrest := ih (k + 1) hlen
    simp only [minLane]
    split <;> omega

theorem minLane_cons_true (ms : List Bool) (k : Nat) (hk : k + (ms.length + 1) ≤ noLane) :
    minLane k (true :: ms) = k := by
  have hrest := minLane_ge ms (k + 1) (by omega)
  simp only [minLane, if_true]
  omega

theorem minLane_le_noLane (mask : List Bool) (k : Nat) : minLane k mask ≤ noLane := by
  induction mask generalizing k with
  | nil => exact Nat.le_refl _
  | cons m ms ih => exact Nat.le_trans (Nat.min_le_right _ _) (ih (k + 1))

theorem minLane_cons_false (ms : List Bool) (k : Nat) :
    minLane k (false :: ms) = minLane (k + 1) ms := by
  have hle := minLane_le_noLane ms (k + 1)
  simp only [minLane]
  exact Nat.min_eq_right hle

/-- The sentinel is the answer of a mask with no lane set. -/
theorem minLane_eq_noLane {mask : List Bool} {k : Nat} (hk : k + mask.length ≤ noLane) :
    minLane k mask = noLane ↔ true ∉ mask := by
  induction mask generalizing k with
  | nil => simp [minLane]
  | cons m ms ih =>
    rw [List.length_cons] at hk
    cases m with
    | true =>
      rw [minLane_cons_true ms k hk]
      simp
      omega
    | false =>
      rw [minLane_cons_false, ih (by omega)]
      simp

theorem firstLane_eq_none {mask : List Bool} (h : mask.length ≤ noLane) :
    firstLane mask = none ↔ true ∉ mask := by
  rw [← minLane_eq_noLane (k := 0) (by omega)]
  simp [firstLane]

/-! ## The byte-at-a-time search -/

/-- The first of the `n` positions from `lo` on that `hit` accepts. -/
def firstFrom (hit : Nat → Bool) : (n lo : Nat) → Option Nat
  | 0, _ => none
  | n + 1, lo => if hit lo then some lo else firstFrom hit n (lo + 1)

theorem firstFrom_eq_some {hit : Nat → Bool} {n lo k : Nat} :
    firstFrom hit n lo = some k ↔
      lo ≤ k ∧ k < lo + n ∧ hit k = true ∧ ∀ j, lo ≤ j → j < k → hit j = false := by
  induction n generalizing lo with
  | zero => simp only [firstFrom]; constructor
            · intro h; cases h
            · rintro ⟨h1, h2, -⟩; omega
  | succ n ih =>
    simp only [firstFrom]
    split
    · rename_i hlo
      constructor
      · intro h
        cases h
        exact ⟨Nat.le_refl _, by omega, hlo, fun j h1 h2 => by omega⟩
      · rintro ⟨h1, -, -, hmin⟩
        rcases Nat.lt_or_ge lo k with hlt | hge
        · rw [hmin lo (Nat.le_refl _) hlt] at hlo
          cases hlo
        · rw [Nat.le_antisymm h1 hge]
    · rename_i hlo
      rw [ih]
      constructor
      · rintro ⟨h1, h2, h3, hmin⟩
        refine ⟨by omega, by omega, h3, fun j hj1 hj2 => ?_⟩
        rcases Nat.lt_or_ge lo j with hlt | hge
        · exact hmin j (by omega) hj2
        · rw [Nat.le_antisymm hge hj1]; simpa using hlo
      · rintro ⟨h1, h2, h3, hmin⟩
        have hne : lo ≠ k := fun h => hlo (h ▸ h3)
        exact ⟨by omega, by omega, h3, fun j hj1 hj2 => hmin j (by omega) hj2⟩

theorem firstFrom_eq_none {hit : Nat → Bool} {n lo : Nat} :
    firstFrom hit n lo = none ↔ ∀ j, lo ≤ j → j < lo + n → hit j = false := by
  induction n generalizing lo with
  | zero => simp only [firstFrom, true_iff]; intro j h1 h2; omega
  | succ n ih =>
    simp only [firstFrom]
    split
    · rename_i hlo
      constructor
      · intro h; cases h
      · intro h; rw [h lo (Nat.le_refl _) (by omega)] at hlo; cases hlo
    · rename_i hlo
      rw [ih]
      constructor
      · intro h j h1 h2
        rcases Nat.lt_or_ge lo j with hlt | hge
        · exact h j (by omega) (by omega)
        · rw [Nat.le_antisymm hge h1]; simpa using hlo
      · intro h j h1 h2
        exact h j (by omega) (by omega)

/-- A range searched in two parts: the second part is asked only when the first has nothing. -/
theorem firstFrom_add (hit : Nat → Bool) (m n lo : Nat) :
    firstFrom hit (m + n) lo = (firstFrom hit m lo).or (firstFrom hit n (lo + m)) := by
  induction m generalizing lo with
  | zero => simp [firstFrom]
  | succ m ih =>
    rw [show m + 1 + n = (m + n) + 1 from by omega]
    simp only [firstFrom]
    split
    · rfl
    · rw [ih (lo + 1), show lo + 1 + m = lo + (m + 1) from by omega]

/-- The search looks at no position outside its range. -/
theorem firstFrom_congr {hit hit' : Nat → Bool} {n lo : Nat}
    (h : ∀ j, lo ≤ j → j < lo + n → hit j = hit' j) :
    firstFrom hit n lo = firstFrom hit' n lo := by
  induction n generalizing lo with
  | zero => rfl
  | succ n ih =>
    simp only [firstFrom]
    rw [h lo (Nat.le_refl _) (by omega), ih (fun j h1 h2 => h j (by omega) (by omega))]

/-- The search of positions counted from `i` on. -/
theorem firstFrom_shift (hit : Nat → Bool) (i n lo : Nat) :
    firstFrom (fun k => hit (i + k)) n lo = (firstFrom hit n (i + lo)).map (· - i) := by
  induction n generalizing lo with
  | zero => rfl
  | succ n ih =>
    simp only [firstFrom]
    split
    · simp
    · rw [ih, Nat.add_assoc]

/-! ## One vector -/

/-- The mask of `W` lanes from position `i` on. -/
def laneMask (hit : Nat → Bool) : (W i : Nat) → List Bool
  | 0, _ => []
  | W + 1, i => hit i :: laneMask hit W (i + 1)

@[simp] theorem length_laneMask (hit : Nat → Bool) (W i : Nat) :
    (laneMask hit W i).length = W := by
  induction W generalizing i with
  | zero => rfl
  | succ W ih => simp [laneMask, ih]

theorem minLane_laneMask (hit : Nat → Bool) (W i k : Nat) (hW : k + W ≤ noLane) :
    minLane k (laneMask hit W i) =
      match firstFrom hit W i with
      | some p => p - i + k
      | none => noLane := by
  induction W generalizing i k with
  | zero => rfl
  | succ W ih =>
    simp only [laneMask, firstFrom]
    cases hi : hit i with
    | true =>
      rw [minLane_cons_true _ _ (by simpa using hW)]
      simp
    | false =>
      rw [minLane_cons_false, ih (i + 1) (k + 1) (by omega)]
      cases hf : firstFrom hit W (i + 1) with
      | none => simp
      | some p =>
        obtain ⟨hp, -⟩ := firstFrom_eq_some.mp hf
        simp only [Bool.false_eq_true, if_false]
        rw [show p - (i + 1) + (k + 1) = p - i + k from by omega]

/-- The first lane of a vector is the first position of its `W` that hits. -/
theorem firstLane_laneMask (hit : Nat → Bool) (W i : Nat) (hW : W ≤ noLane) :
    firstLane (laneMask hit W i) = (firstFrom hit W i).map (· - i) := by
  simp only [firstLane]
  rw [minLane_laneMask hit W i 0 (by omega)]
  cases hf : firstFrom hit W i with
  | none => simp
  | some p =>
    obtain ⟨h1, h2, -⟩ := firstFrom_eq_some.mp hf
    have hne : ¬ p - i = noLane := by omega
    simp only [Option.map_some, Nat.add_zero, if_neg hne]

/-! ## The vector loop -/

/-- `while room(i)`: the vector at `i`, then `i += W`. `Sum.inl` is the position a lane
named; `Sum.inr` is the `i` the loop left with. `fuel` bounds the turns; no result depends
on it (`laneLoop_answer`), since what the loop leaves is searched behind it. -/
def laneLoop (W : Nat) (room hit : Nat → Bool) : (fuel i : Nat) → Nat ⊕ Nat
  | 0, i => .inr i
  | fuel + 1, i =>
    if room i then
      match firstLane (laneMask hit W i) with
      | some lane => .inl (i + lane)
      | none => laneLoop W room hit fuel (i + W)
    else .inr i

/-- What a vector loop entered at `i` leaves: the position it found is the search's answer up
to `hi`, or it found nothing before the `i'` it left with. -/
def LoopAnswer (hit : Nat → Bool) (hi i : Nat) : Nat ⊕ Nat → Prop
  | .inl k => firstFrom hit (hi - i) i = some k
  | .inr i' => i ≤ i' ∧ i' ≤ hi ∧ firstFrom hit (hi - i) i = firstFrom hit (hi - i') i'

theorem laneLoop_answer {W hi : Nat} (room hit : Nat → Bool) (fuel i : Nat) (hW : W ≤ noLane)
    (hroom : ∀ i, room i = true → i + W ≤ hi) (hi' : i ≤ hi) :
    LoopAnswer hit hi i (laneLoop W room hit fuel i) := by
  induction fuel generalizing i with
  | zero => exact ⟨Nat.le_refl _, hi', rfl⟩
  | succ fuel ih =>
    by_cases hr : room i = true
    · have hfit := hroom i hr
      have hsplit : firstFrom hit (hi - i) i
          = (firstFrom hit W i).or (firstFrom hit (hi - (i + W)) (i + W)) := by
        rw [← firstFrom_add, show W + (hi - (i + W)) = hi - i from by omega]
      rw [laneLoop, if_pos hr, firstLane_laneMask hit W i hW]
      cases hf : firstFrom hit W i with
      | some p =>
        obtain ⟨h1, -⟩ := firstFrom_eq_some.mp hf
        show firstFrom hit (hi - i) i = some (i + (p - i))
        rw [hsplit, hf, Option.some_or, show i + (p - i) = p from by omega]
      | none =>
        rw [hf, Option.none_or] at hsplit
        have hnext := ih (i + W) hfit
        show LoopAnswer hit hi i (laneLoop W room hit fuel (i + W))
        cases hl : laneLoop W room hit fuel (i + W) with
        | inl k =>
          rw [hl] at hnext
          exact hsplit.trans hnext
        | inr i' =>
          rw [hl] at hnext
          obtain ⟨h1, h2, h3⟩ := hnext
          exact ⟨by omega, h2, hsplit.trans h3⟩
    · rw [laneLoop, if_neg hr]
      exact ⟨Nat.le_refl _, hi', rfl⟩

/-- **A vector loop and a search of what it leaves are the search.** `rest` is any search that
agrees with `firstFrom` to the end `hi` of the range. -/
theorem firstFrom_of_laneLoop {W hi : Nat} {room hit : Nat → Bool} (rest : Nat → Option Nat)
    (fuel i : Nat) (hW : W ≤ noLane) (hroom : ∀ i, room i = true → i + W ≤ hi) (hi' : i ≤ hi)
    (hrest : ∀ i', i ≤ i' → i' ≤ hi → rest i' = firstFrom hit (hi - i') i') :
    (match laneLoop W room hit fuel i with
      | .inl k => some k
      | .inr i' => rest i') = firstFrom hit (hi - i) i := by
  have hspec := laneLoop_answer room hit fuel i hW hroom hi'
  cases hl : laneLoop W room hit fuel i with
  | inl k =>
    rw [hl] at hspec
    exact Eq.symm hspec
  | inr i' =>
    rw [hl] at hspec
    obtain ⟨h1, h2, h3⟩ := hspec
    exact (hrest i' h1 h2).trans h3.symm

/-- The scan that only asks whether there is a hit. -/
theorem isSome_of_laneLoop {W hi : Nat} (room hit : Nat → Bool) (fuel i : Nat) (hW : W ≤ noLane)
    (hroom : ∀ i, room i = true → i + W ≤ hi) (hi' : i ≤ hi) :
    (match laneLoop W room hit fuel i with
      | .inl _ => true
      | .inr i' => (firstFrom hit (hi - i') i').isSome) = (firstFrom hit (hi - i) i).isSome := by
  have hspec := laneLoop_answer room hit fuel i hW hroom hi'
  cases hl : laneLoop W room hit fuel i with
  | inl k =>
    rw [hl] at hspec
    have hk : firstFrom hit (hi - i) i = some k := hspec
    rw [hk]
    rfl
  | inr i' =>
    rw [hl] at hspec
    obtain ⟨-, -, heq⟩ := hspec
    rw [heq]

/-! ## Searches over a list -/

/-- The search for the first element of a class is `List.findIdx?`. -/
theorem firstFrom_getD {α : Type} (p : α → Bool) (xs : List α) (d : α) :
    firstFrom (fun k => p (xs.getD k d)) xs.length 0 = xs.findIdx? p := by
  have hshift : ∀ (l : List α) (pre : List α), pre ++ l = xs →
      firstFrom (fun k => p (xs.getD k d)) l.length pre.length
        = (l.findIdx? p).map (· + pre.length) := by
    intro l
    induction l with
    | nil => intro pre _; rfl
    | cons a l ih =>
      intro pre hxs
      have hget : xs.getD pre.length d = a := by simp [← hxs]
      have hrest := ih (pre ++ [a]) (by simp [← hxs])
      simp only [List.length_cons, firstFrom, hget, List.findIdx?_cons]
      split
      · simp
      · rw [show pre.length + 1 = (pre ++ [a]).length from by simp, hrest]
        cases l.findIdx? p with
        | none => rfl
        | some k => simp; omega
  have h := hshift xs [] rfl
  simpa using h

end LaneScan
