import Mathlib.Data.List.Basic

/-!
# Byte ranges (RFC 9110, section 14.1)

A single range of a representation, apart from who reads it.

* **`RangeSpec`** — `first-last`, `first-` and `-suffix`; a last position below the first is none.
* **`RangeSpec.Selects`** — the positions a range selects of a representation.
* **`Bounds`** — what the two sides of the dash write.
-/

namespace Rfc9110

abbrev DASH : UInt8 := 0x2D

/-- `DIGIT` -/
abbrev Digit (b : UInt8) : Prop := 0x30 ≤ b ∧ b ≤ 0x39

/-- `1*DIGIT` -/
def IsDigits (ds : List UInt8) : Prop := ds ≠ [] ∧ ∀ b ∈ ds, Digit b

instance (ds : List UInt8) : Decidable (IsDigits ds) := inferInstanceAs (Decidable (_ ∧ _))

/-- The number that digits write behind a number already read. -/
def numberFrom (n : Nat) (ds : List UInt8) : Nat := ds.foldl (fun n b => n * 10 + (b.toNat - 0x30)) n

/-- The number that digits write. -/
def number (ds : List UInt8) : Nat := numberFrom 0 ds

@[simp] theorem numberFrom_nil (n : Nat) : numberFrom n [] = n := rfl

@[simp] theorem numberFrom_cons (n : Nat) (b : UInt8) (ds : List UInt8) :
    numberFrom n (b :: ds) = numberFrom (n * 10 + (b.toNat - 0x30)) ds := by
  unfold numberFrom
  exact List.foldl_cons ..

theorem le_numberFrom (n : Nat) (ds : List UInt8) : n ≤ numberFrom n ds := by
  induction ds generalizing n with
  | nil => exact Nat.le_refl n
  | cons b ds ih =>
    have hrest := ih (n * 10 + (b.toNat - 0x30))
    rw [numberFrom_cons]
    omega

theorem IsDigits.not_mem {ds : List UInt8} {c : UInt8} (h : IsDigits ds) (hc : ¬Digit c) : c ∉ ds :=
  fun hmem => hc (h.2 c hmem)

/-- One range; the positions are inclusive. -/
inductive RangeSpec where
  | int (first : Nat) (last : Option Nat) (ordered : ∀ l ∈ last, first ≤ l)
  | suffix (length : Nat)

namespace RangeSpec

/-- The positions a range selects of a representation of `total` bytes. -/
def Selects (total : Nat) : RangeSpec → Nat → Prop
  | int first last _, i => first ≤ i ∧ (∀ l ∈ last, i ≤ l) ∧ i < total
  | suffix length, i => total ≤ i + length ∧ i < total

/-- Every number of the range is below the bound. -/
def Below (bound : Nat) : RangeSpec → Prop
  | int first last _ => first < bound ∧ ∀ l ∈ last, l < bound
  | suffix length => length < bound

end RangeSpec

/-- The range that the texts on the two sides of the dash write. -/
inductive Bounds : (lo hi : List UInt8) → RangeSpec → Prop where
  | span {lo hi : List UInt8} (hlo : IsDigits lo) (hhi : IsDigits hi)
      (ordered : ∀ l ∈ some (number hi), number lo ≤ l) :
      Bounds lo hi (.int (number lo) (some (number hi)) ordered)
  | onward {lo : List UInt8} (hlo : IsDigits lo) (ordered : ∀ l ∈ none, number lo ≤ l) :
      Bounds lo [] (.int (number lo) none ordered)
  | suffix {hi : List UInt8} (hhi : IsDigits hi) : Bounds [] hi (.suffix (number hi))

namespace Bounds

variable {lo hi : List UInt8} {spec : RangeSpec} {c : UInt8}

/-- Nothing but digits stands beside the dash. -/
theorem not_mem (h : Bounds lo hi spec) (hc : ¬Digit c) : c ∉ lo ∧ c ∉ hi := by
  cases h with
  | span hlo hhi _ => exact ⟨hlo.not_mem hc, hhi.not_mem hc⟩
  | onward hlo _ => exact ⟨hlo.not_mem hc, List.not_mem_nil⟩
  | suffix hhi => exact ⟨List.not_mem_nil, hhi.not_mem hc⟩

/-- Two texts beside a dash write one range at most. -/
theorem unique {spec' : RangeSpec} (h : Bounds lo hi spec) (h' : Bounds lo hi spec') :
    spec = spec' := by
  cases h with
  | span hlo hhi _ =>
    cases h' with
    | span _ _ _ => rfl
    | onward _ _ => exact absurd rfl hhi.1
    | suffix _ => exact absurd rfl hlo.1
  | onward hlo _ =>
    cases h' with
    | span _ hhi _ => exact absurd rfl hhi.1
    | onward _ _ => rfl
    | suffix _ => exact absurd rfl hlo.1
  | suffix hhi =>
    cases h' with
    | span hlo _ _ => exact absurd rfl hlo.1
    | onward hlo _ => exact absurd rfl hlo.1
    | suffix _ => rfl

end Bounds

end Rfc9110
