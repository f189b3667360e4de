import Mathlib.Data.List.Basic
import Mathlib.Data.List.Infix

/-!
# CRLF text: lines, bare line feeds and the empty line

Byte text whose lines end in CR LF, as the line-oriented protocols write it.

* **`NoBareLf`** — every LF has a CR right before it. Closed under append, so a reader that
  takes its input piece by piece proves it piece by piece.
* **`emptyLineAt`** — CR LF CR LF starts at a position: the end of a block of lines.
* **`lines_unlines`** — text split at CR LF is the lines it was made of.
* **`emptyLineEndsAt_block`** — a block of non-empty lines ends at its own empty line, whatever
  follows.
-/

namespace CrlfText

abbrev cr : UInt8 := 0x0D
abbrev lf : UInt8 := 0x0A

def crlf : List UInt8 := [cr, lf]

/-! ## No bare line feed -/

/-- Every LF of `l` comes right behind a CR. -/
def NoBareLf (l : List UInt8) : Prop :=
  ∀ i, l[i]? = some lf → ∃ j, i = j + 1 ∧ l[j]? = some cr

theorem noBareLf_of_not_mem {l : List UInt8} (h : lf ∉ l) : NoBareLf l :=
  fun _ hi => absurd (List.mem_of_getElem? hi) h

theorem noBareLf_nil : NoBareLf [] := noBareLf_of_not_mem (by simp)

theorem noBareLf_crlf : NoBareLf crlf := by
  intro i hi
  match i with
  | 0 => cases hi
  | 1 => exact ⟨0, rfl, rfl⟩
  | n + 2 => cases hi

theorem NoBareLf.append {a b : List UInt8} (ha : NoBareLf a) (hb : NoBareLf b) :
    NoBareLf (a ++ b) := by
  intro i hi
  rcases Nat.lt_or_ge i a.length with hlt | hge
  · rw [List.getElem?_append_left hlt] at hi
    obtain ⟨j, rfl, hj⟩ := ha i hi
    exact ⟨j, rfl, by rw [List.getElem?_append_left (by omega)]; exact hj⟩
  · rw [List.getElem?_append_right hge] at hi
    obtain ⟨j, hij, hj⟩ := hb _ hi
    refine ⟨a.length + j, by omega, ?_⟩
    rw [List.getElem?_append_right (by omega), show a.length + j - a.length = j from by omega]
    exact hj

theorem NoBareLf.of_append_left {a b : List UInt8} (h : NoBareLf (a ++ b)) : NoBareLf a := by
  intro i hi
  have hlt : i < a.length := (List.getElem?_eq_some_iff.mp hi).1
  obtain ⟨j, rfl, hj⟩ := h i (by rw [List.getElem?_append_left hlt]; exact hi)
  exact ⟨j, rfl, by rw [List.getElem?_append_left (by omega)] at hj; exact hj⟩

theorem NoBareLf.take {l : List UInt8} (h : NoBareLf l) (n : Nat) : NoBareLf (l.take n) :=
  NoBareLf.of_append_left (b := l.drop n) (by rwa [List.take_append_drop])

/-! ## The empty line -/

/-- CR LF CR LF starts at position `k` of `l`. -/
def emptyLineAt (l : List UInt8) (k : Nat) : Bool :=
  l[k]? == some cr && l[k + 1]? == some lf && l[k + 2]? == some cr && l[k + 3]? == some lf

theorem emptyLineAt_lt {l : List UInt8} {k : Nat} (h : emptyLineAt l k = true) :
    k + 3 < l.length := by
  simp only [emptyLineAt, Bool.and_eq_true, beq_iff_eq] at h
  exact (List.getElem?_eq_some_iff.mp h.2).1

/-- A position that sees only `l.take n` sees `l`. -/
theorem emptyLineAt_take {l : List UInt8} {k n : Nat} (h : k + 3 < n) :
    emptyLineAt (l.take n) k = emptyLineAt l k := by
  simp only [emptyLineAt]
  rw [List.getElem?_take_of_lt (by omega), List.getElem?_take_of_lt (by omega),
    List.getElem?_take_of_lt (by omega), List.getElem?_take_of_lt h]

theorem emptyLineAt_append_left {a b : List UInt8} {k : Nat} (h : k + 3 < a.length) :
    emptyLineAt (a ++ b) k = emptyLineAt a k := by
  simp only [emptyLineAt]
  rw [List.getElem?_append_left (by omega), List.getElem?_append_left (by omega),
    List.getElem?_append_left (by omega), List.getElem?_append_left h]

theorem emptyLineAt_of_append (a b : List UInt8) :
    emptyLineAt (a ++ (crlf ++ crlf) ++ b) a.length = true := by
  simp [emptyLineAt, crlf]

/-- What stands behind `a` is seen from there. -/
theorem emptyLineAt_append_right (a b : List UInt8) (k : Nat) :
    emptyLineAt (a ++ b) (a.length + k) = emptyLineAt b k := by
  have hget : ∀ i, (a ++ b)[a.length + k + i]? = b[k + i]? := by
    intro i
    rw [List.getElem?_append_right (by omega),
      show a.length + k + i - a.length = k + i from by omega]
  simp only [emptyLineAt]
  rw [← Nat.add_zero (a.length + k), hget 0, Nat.add_zero, hget 1, hget 2, hget 3]

/-! ## Lines -/

/-- Neither CR nor LF. -/
def IsLine (l : List UInt8) : Prop := cr ∉ l ∧ lf ∉ l

/-- Text split at CR LF. An unfinished line at the end is a line; behind the last CR LF there is
none. -/
def lines : List UInt8 → List (List UInt8)
  | [] => []
  | 0x0D :: 0x0A :: t => [] :: lines t
  | b :: t =>
    match lines t with
    | [] => [[b]]
    | l :: ls => (b :: l) :: ls

/-- Lines, each ended by CR LF. -/
def unlines (ls : List (List UInt8)) : List UInt8 := ls.flatMap (· ++ crlf)

theorem unlines_cons (l : List UInt8) (ls : List (List UInt8)) :
    unlines (l :: ls) = l ++ (crlf ++ unlines ls) := by
  simp [unlines, List.append_assoc]

theorem unlines_append (as bs : List (List UInt8)) :
    unlines (as ++ bs) = unlines as ++ unlines bs := List.flatMap_append

theorem IsLine.tail {b : UInt8} {l : List UInt8} (h : IsLine (b :: l)) : IsLine l :=
  ⟨fun hmem => h.1 (List.mem_cons_of_mem _ hmem), fun hmem => h.2 (List.mem_cons_of_mem _ hmem)⟩

theorem lines_append {l : List UInt8} (hl : IsLine l) (t : List UInt8) :
    lines (l ++ (crlf ++ t)) = l :: lines t := by
  induction l with
  | nil => rfl
  | cons b l ih =>
    have hb : b ≠ 0x0D := fun h => hl.1 (by rw [h]; exact List.mem_cons_self)
    rw [List.cons_append, lines, ih hl.tail]
    exact fun _ h => absurd h hb

/-- **Split at CR LF, a block is the lines it was made of.** -/
theorem lines_unlines {ls : List (List UInt8)} (h : ∀ l ∈ ls, IsLine l) :
    lines (unlines ls) = ls := by
  induction ls with
  | nil => rfl
  | cons l ls ih =>
    rw [unlines_cons, lines_append (h l (by simp)), ih fun l' hl' => h l' (by simp [hl'])]

/-- The first CR LF CR LF of `text` ends at `n`. -/
def EmptyLineEndsAt (text : List UInt8) (n : Nat) : Prop :=
  ∃ k, n = k + 4 ∧ emptyLineAt text k = true ∧ ∀ j < k, emptyLineAt text j = false

/-- No empty line starts inside a line, nor right before what is no CR LF. -/
theorem emptyLineAt_line {l rest : List UInt8} (hl : IsLine l) (hrest : rest.head? ≠ some cr)
    {j : Nat} (hj : j < l.length + 2) : emptyLineAt (l ++ (crlf ++ rest)) j = false := by
  simp only [emptyLineAt, Bool.and_eq_false_iff, beq_eq_false_iff_ne]
  rcases Nat.lt_trichotomy j l.length with hlt | heq | hgt
  · -- a byte of the line is no CR
    refine Or.inl (Or.inl (Or.inl fun h => ?_))
    rw [List.getElem?_append_left hlt] at h
    exact hl.1 (List.mem_of_getElem? h)
  · refine Or.inl (Or.inr fun h => hrest ?_)
    rw [List.getElem?_append_right (by omega), show j + 2 - l.length = 2 from by omega] at h
    rw [List.head?_eq_getElem?]
    exact h
  · -- the LF of the line's end is no CR
    refine Or.inl (Or.inl (Or.inl fun h => ?_))
    rw [List.getElem?_append_right (by omega), show j - l.length = 1 from by omega] at h
    cases h

/-- **A block of non-empty lines ends at its own empty line**, whatever stands behind it. -/
theorem emptyLineEndsAt_block {first : List UInt8} {ls : List (List UInt8)}
    (h : ∀ l ∈ first :: ls, IsLine l ∧ l ≠ []) (body : List UInt8) :
    EmptyLineEndsAt (unlines (first :: ls) ++ (crlf ++ body))
      ((unlines (first :: ls)).length + 2) := by
  induction ls generalizing first with
  | nil =>
    obtain ⟨hfirst, -⟩ := h first (by simp)
    refine ⟨first.length, by simp [unlines, crlf], ?_, fun j hj => ?_⟩
    · have hend := emptyLineAt_of_append first body
      simpa [unlines, List.append_assoc] using hend
    · simp only [emptyLineAt, Bool.and_eq_false_iff, beq_eq_false_iff_ne]
      refine Or.inl (Or.inl (Or.inl fun hcr => ?_))
      rw [unlines_cons, List.append_assoc, List.getElem?_append_left hj] at hcr
      exact hfirst.1 (List.mem_of_getElem? hcr)
  | cons l ls ih =>
    obtain ⟨hfirst, -⟩ := h first (by simp)
    obtain ⟨hl, hne⟩ := h l (by simp)
    obtain ⟨k, hk, hempty, hmin⟩ := @ih l fun l' hl' => h l' (List.mem_cons_of_mem _ hl')
    have htext : unlines (first :: l :: ls) ++ (crlf ++ body) =
        first ++ (crlf ++ (unlines (l :: ls) ++ (crlf ++ body))) := by
      rw [unlines_cons]
      simp only [List.append_assoc]
    have hlen : (first ++ crlf).length = first.length + 2 := by simp [crlf]
    have hshift : ∀ i, emptyLineAt (unlines (first :: l :: ls) ++ (crlf ++ body))
        (first.length + 2 + i) = emptyLineAt (unlines (l :: ls) ++ (crlf ++ body)) i := by
      intro i
      rw [htext, ← List.append_assoc, ← hlen]
      exact emptyLineAt_append_right _ _ i
    refine ⟨first.length + 2 + k, ?_, by rw [hshift]; exact hempty, fun j hj => ?_⟩
    · rw [unlines_cons, List.length_append, List.length_append, show crlf.length = 2 from rfl]
      omega
    · rcases Nat.lt_or_ge j (first.length + 2) with hlt | hge
      · rw [htext]
        refine emptyLineAt_line hfirst ?_ hlt
        -- the next line is not empty and starts with no CR
        cases l with
        | nil => exact absurd rfl hne
        | cons b l =>
          rw [unlines_cons]
          intro hhead
          refine hl.1 ?_
          have hb : b = cr := by simpa using hhead
          rw [hb]
          exact List.mem_cons_self
      · rw [show j = first.length + 2 + (j - (first.length + 2)) from by omega, hshift]
        exact hmin _ (by omega)

end CrlfText
