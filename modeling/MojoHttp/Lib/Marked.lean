import Mathlib.Data.List.Nodup
import Mathlib.Logic.Function.Basic
import Mathlib.Data.Int.Cast.Basic
import Mathlib.Tactic.Common

/-!
# Lists with a mark for each member

A list of keys that is appended to and taken whole, beside a table that marks the keys in it, so that none
is appended twice. And a count over a table of which one entry is exchanged.

* **`Marked.add`**, **`Marked.take`** — the two agree after an append and after a take.
* **`countP_update`** — the count changes by what the entry counted for.
-/

/-- The marked keys are those in the list, each there once. -/
structure Marked {α : Type*} (ready : List α) (named : α → Bool) : Prop where
  nodup : ready.Nodup
  mem : ∀ a, a ∈ ready ↔ named a = true

namespace Marked

theorem nil {α : Type*} : Marked [] fun _ : α => false :=
  ⟨List.nodup_nil, fun _ => ⟨fun h => (nomatch h), fun h => (nomatch h)⟩⟩

variable {α : Type*} [DecidableEq α] {ready : List α} {named : α → Bool}

theorem add (h : Marked ready named) {a : α} (hnew : named a = false) :
    Marked (ready ++ [a]) (Function.update named a true) := by
  have hnot : a ∉ ready := fun hmem => nomatch hnew.symm.trans ((h.mem a).mp hmem)
  refine ⟨h.nodup.append (List.nodup_singleton a) ?_, fun b => ?_⟩
  · intro b hb hb'
    rw [List.mem_singleton.mp hb'] at hb
    exact hnot hb
  · rw [List.mem_append, List.mem_singleton]
    rcases Decidable.em (b = a) with rfl | hne
    · rw [Function.update_self]
      exact ⟨fun _ => rfl, fun _ => Or.inr rfl⟩
    · rw [Function.update_of_ne hne, h.mem b]
      exact ⟨fun hor => hor.resolve_right hne, Or.inl⟩

/-- The marks of the keys that are taken are cleared, and no other. -/
theorem clear_eq (ready : List α) (named : α → Bool) (a : α) :
    ready.foldl (fun named a => Function.update named a false) named a =
      if a ∈ ready then false else named a := by
  induction ready generalizing named with
  | nil => rfl
  | cons b ready ih =>
    rw [List.foldl_cons, ih]
    rcases Decidable.em (a = b) with rfl | hne
    · rw [Function.update_self, ite_self, if_pos List.mem_cons_self]
    · rw [Function.update_of_ne hne]
      exact if_congr (by rw [List.mem_cons, or_iff_right hne]) rfl rfl

theorem take (h : Marked ready named) :
    Marked [] (ready.foldl (fun named a => Function.update named a false) named) := by
  refine ⟨List.nodup_nil, fun a => ⟨fun hno => (nomatch hno), fun hyes => ?_⟩⟩
  rw [clear_eq] at hyes
  split at hyes
  · cases hyes
  · next hnot => exact absurd ((h.mem a).mpr hyes) hnot

end Marked

/-- **One entry of the table is exchanged.** -/
theorem countP_update {α β : Type*} [DecidableEq α] {keys : List α} (hnodup : keys.Nodup) {a : α}
    (hmem : a ∈ keys) (p : β → Bool) (f : α → β) (b : β) :
    ((keys.countP fun k => p (Function.update f a b k) : Nat) : Int) =
      (keys.countP fun k => p (f k) : Nat) - (if p (f a) then 1 else 0) + if p b then 1 else 0 := by
  induction keys with
  | nil => cases hmem
  | cons k keys ih =>
    have ⟨hnot, hrest⟩ := List.nodup_cons.mp hnodup
    rw [List.countP_cons, List.countP_cons]
    rcases Decidable.em (a = k) with rfl | hne
    · -- the rest is as it was
      have hsame : (keys.countP fun k => p (Function.update f a b k)) = keys.countP fun k => p (f k) := by
        apply List.countP_congr
        intro k hk
        have hne : k ≠ a := fun heq => hnot (by rw [← heq]; exact hk)
        rw [Function.update_of_ne hne]
      rw [hsame, Function.update_self]
      split
      · split
        · omega
        · omega
      · split
        · omega
        · omega
    · rw [Function.update_of_ne (Ne.symm hne)]
      have hrec := ih hrest ((List.mem_cons.mp hmem).resolve_left hne)
      push_cast
      rw [hrec]
      omega
