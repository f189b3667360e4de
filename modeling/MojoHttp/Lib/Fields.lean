import Mathlib.Data.List.Basic

/-!
# The fields of a text, by where its separators are

A reader that notes the position of every separator of a text (`List.idxsOf`) and cuts the text
there has its fields back.

* **`start`**, **`stop`** — where a field begins and ends, given the separators' positions.
* **`slice_intercalate`** — the text between the two is the field.
-/

namespace Fields

variable {α : Type*} [BEq α] [LawfulBEq α]

/-- Where field `k` begins: one past the separator before it. -/
def start (marks : List Nat) (k : Nat) : Nat := if k = 0 then 0 else marks.getD (k - 1) 0 + 1

/-- Where field `k` ends: at its separator, or at the end of the text. -/
def stop (marks : List Nat) (length k : Nat) : Nat :=
  if k < marks.length then marks.getD k 0 else length

theorem idxsOf_of_not_mem {sep : α} {field : List α} (hnot : sep ∉ field) (i : Nat) :
    field.idxsOf sep i = [] := by
  rw [List.idxsOf_eq_nil_iff]
  intro y hy
  rw [beq_eq_false_iff_ne]
  rintro rfl
  exact hnot hy

/-- A field in front, and what stands behind its separator. -/
theorem idxsOf_append_cons {sep : α} {field : List α} (hnot : sep ∉ field) (rest : List α) (i : Nat) :
    (field ++ sep :: rest).idxsOf sep i = (i + field.length) :: rest.idxsOf sep (i + field.length + 1) := by
  rw [List.idxsOf_append, idxsOf_of_not_mem hnot, List.nil_append, List.idxsOf_cons, if_pos BEq.rfl]

/-- As many separators as fields, less one. -/
theorem length_idxsOf_intercalate {sep : α} {fields : List (List α)} (hnot : ∀ f ∈ fields, sep ∉ f)
    (hne : fields ≠ []) (i : Nat) : (([sep].intercalate fields).idxsOf sep i).length + 1 = fields.length := by
  induction fields generalizing i with
  | nil => exact absurd rfl hne
  | cons field fields ih =>
    cases fields with
    | nil =>
      rw [List.intercalate_singleton, idxsOf_of_not_mem (hnot field List.mem_cons_self)]
      rfl
    | cons next fields =>
      rw [List.intercalate_cons_cons, List.append_assoc, List.singleton_append,
        idxsOf_append_cons (hnot field List.mem_cons_self), List.length_cons,
        ih (fun f hf => hnot f (List.mem_cons_of_mem _ hf)) (List.cons_ne_nil _ _)]
      rfl

/-- The same behind some text: `before` is what the reader has passed. -/
theorem slice_behind {sep : α} {fields : List (List α)} (hnot : ∀ f ∈ fields, sep ∉ f) (before : List α)
    {k : Nat} (hk : k < fields.length) {text : List α} (htext : text = before ++ [sep].intercalate fields)
    {marks : List Nat} (hmarks : marks = ([sep].intercalate fields).idxsOf sep before.length) {first : Nat}
    (hfirst : first = if k = 0 then before.length else marks.getD (k - 1) 0 + 1) :
    stop marks text.length k = first + fields[k].length ∧ (text.drop first).take fields[k].length = fields[k] := by
  induction fields generalizing before k marks with
  | nil => exact absurd hk (Nat.not_lt_zero k)
  | cons field fields ih =>
    cases fields with
    | nil =>
      have hzero : k = 0 := by
        rw [List.length_singleton] at hk
        omega
      subst hzero
      rw [List.intercalate_singleton] at htext hmarks
      rw [idxsOf_of_not_mem (hnot field List.mem_cons_self)] at hmarks
      subst hmarks hfirst htext
      simp [stop]
    | cons next fields =>
      rw [List.intercalate_cons_cons, List.append_assoc, List.singleton_append] at htext hmarks
      rw [idxsOf_append_cons (hnot field List.mem_cons_self)] at hmarks
      cases k with
      | zero =>
        subst hmarks hfirst htext
        simp [stop]
      | succ k =>
        -- the fields behind the first are those of the text behind its separator
        have hlength : (before ++ field ++ [sep]).length = before.length + field.length + 1 := by
          simp [Nat.add_assoc]
        have hstop : stop marks text.length (k + 1) =
            stop (([sep].intercalate (next :: fields)).idxsOf sep (before ++ field ++ [sep]).length) text.length k := by
          rw [hmarks, hlength]
          unfold stop
          rw [List.length_cons, List.getD_cons_succ]
          by_cases hlt : k < (([sep].intercalate (next :: fields)).idxsOf sep
              (before.length + field.length + 1)).length
          · rw [if_pos (by omega), if_pos hlt]
          · rw [if_neg (by omega), if_neg hlt]
        rw [hstop]
        refine ih (fun f hf => hnot f (List.mem_cons_of_mem _ hf)) (before ++ field ++ [sep])
          (Nat.lt_of_succ_lt_succ hk) (by rw [htext]; simp) rfl ?_
        rw [hfirst, hmarks, hlength, if_neg (Nat.succ_ne_zero k), Nat.add_sub_cancel]
        cases k with
        | zero => rfl
        | succ k => rfl

section Text

variable {sep : α} {fields : List (List α)} (hnot : ∀ f ∈ fields, sep ∉ f) {k : Nat} (hk : k < fields.length)
  {text : List α} (htext : text = [sep].intercalate fields)

include hnot htext

theorem stop_eq : stop (text.idxsOf sep) text.length k = start (text.idxsOf sep) k + fields[k].length := by
  have hmarks : text.idxsOf sep = ([sep].intercalate fields).idxsOf sep ([] : List α).length := by
    rw [htext]
    rfl
  exact (slice_behind hnot [] hk htext hmarks rfl).1

/-- **The fields of a text** stand between its separators. -/
theorem slice_intercalate : (text.drop (start (text.idxsOf sep) k)).take fields[k].length = fields[k] := by
  have hmarks : text.idxsOf sep = ([sep].intercalate fields).idxsOf sep ([] : List α).length := by
    rw [htext]
    rfl
  exact (slice_behind hnot [] hk htext hmarks rfl).2

end Text

/-- The last separator of a text is the one in front of its last field. -/
theorem getD_idxsOf_last {sep : α} {last : List α} (hnot : sep ∉ last) (front : List α) :
    ((front ++ sep :: last).idxsOf sep).getD (((front ++ sep :: last).idxsOf sep).length - 1) 0 = front.length := by
  have hmarks : (front ++ sep :: last).idxsOf sep = front.idxsOf sep ++ [front.length] := by
    rw [List.idxsOf_append, List.idxsOf_cons, if_pos BEq.rfl, idxsOf_of_not_mem hnot, Nat.zero_add]
  rw [hmarks, List.length_append, List.length_singleton, Nat.add_sub_cancel]
  simp

end Fields
