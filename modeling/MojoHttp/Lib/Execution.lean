import Mathlib.Data.List.Basic
import Mathlib.Data.Nat.Init
import Mathlib.Order.Basic

/-!
# Executions of a labelled system

A system takes steps, each with a label that says who did what. Nothing here knows what the states
are.

* **`Execution.invariant`** — what holds at the start and is kept by every step holds at every
  instant.
* **`Execution.stays`**, **`Execution.mono`** — what the steps between two instants keep.
* **`Execution.last_entry`** — what holds now and did not once, began at a last step.
* **`Execution.made_of`** — what the steps have put together.
* **`Execution.ofRun`** — a list of labels that can be taken is an execution.
-/

/-- Where a system starts and what it does at each label, if it can. -/
structure LabelledSystem (S L : Type*) where
  init : S
  next : S → L → Option S

namespace LabelledSystem

variable {S L : Type*}

/-- The state behind a list of labels. -/
def run (M : LabelledSystem S L) : S → List L → Option S
  | s, [] => some s
  | s, l :: ls => (M.next s l).bind fun s' => M.run s' ls

/-- A finite execution: the labels taken and the state at every instant. -/
structure Execution (M : LabelledSystem S L) where
  labels : List L
  state : ℕ → S
  start : state 0 = M.init
  steps : ∀ {k l}, labels[k]? = some l → M.next (state k) l = some (state (k + 1))

variable {M : LabelledSystem S L}

namespace Execution

theorem exists_label (e : M.Execution) {k : ℕ} (hk : k < e.labels.length) :
    ∃ l, e.labels[k]? = some l := ⟨_, List.getElem?_eq_getElem hk⟩

theorem lt_length {e : M.Execution} {k : ℕ} {l : L} (h : e.labels[k]? = some l) :
    k < e.labels.length := (List.getElem?_eq_some_iff.mp h).1

/-! ## Between two instants -/

/-- **What the steps from `i` to `j` keep.** -/
theorem stays {e : M.Execution} {P : S → Prop} {i j : ℕ} (hij : i ≤ j) (hj : j ≤ e.labels.length)
    (hi : P (e.state i))
    (hstep : ∀ k l, i ≤ k → k < j → e.labels[k]? = some l → P (e.state k) → P (e.state (k + 1))) :
    P (e.state j) := by
  induction j, hij using Nat.le_induction with
  | base => exact hi
  | succ j hij ih =>
    have hbefore : P (e.state j) :=
      ih (by omega) fun k l hik hkj => hstep k l hik (by omega)
    obtain ⟨l, hl⟩ := e.exists_label (show j < e.labels.length by omega)
    exact hstep j l hij (by omega) hl hbefore

/-- **An invariant holds at every instant.** -/
theorem invariant (e : M.Execution) {I : S → Prop} (hinit : I M.init)
    (hstep : ∀ s l s', I s → M.next s l = some s' → I s') :
    ∀ k ≤ e.labels.length, I (e.state k) := by
  intro k hk
  refine stays (Nat.zero_le k) hk (by rw [e.start]; exact hinit) ?_
  exact fun k l _ _ hl hI => hstep _ l _ hI (e.steps hl)

/-- **The step a lasting condition began at.** -/
theorem last_entry {e : M.Execution} {P : S → Prop} {i j : ℕ} (hij : i ≤ j)
    (hi : ¬ P (e.state i)) (hj : P (e.state j)) :
    ∃ k, i ≤ k ∧ k < j ∧ ¬ P (e.state k) ∧ ∀ m, k < m → m ≤ j → P (e.state m) := by
  induction j, hij using Nat.le_induction with
  | base => exact absurd hj hi
  | succ j hij ih =>
    rcases Classical.em (P (e.state j)) with hbefore | hbefore
    · obtain ⟨k, hik, hkj, hk, hlast⟩ := ih hbefore
      refine ⟨k, hik, by omega, hk, fun m hkm hmj => ?_⟩
      rcases Nat.lt_or_ge j m with hlt | hge
      · rw [show m = j + 1 from by omega]
        exact hj
      · exact hlast m hkm hge
    · refine ⟨j, hij, by omega, hbefore, fun m hjm hmj => ?_⟩
      rw [show m = j + 1 from by omega]
      exact hj

/-- **A store that steps put whole pieces behind, or empty first**, is a concatenation of pieces that the
labels carried. -/
theorem made_of {α : Type*} (e : M.Execution) (store : S → List α) (piece : L → Option (List α))
    (hinit : store M.init = [])
    (hstep : ∀ s l s', M.next s l = some s' → ∃ pieces : List (List α), (∀ p ∈ pieces, piece l = some p) ∧
      (store s' = store s ++ pieces.flatten ∨ store s' = pieces.flatten)) {k : ℕ}
    (hk : k ≤ e.labels.length) :
    ∃ pieces : List (List α), (∀ p ∈ pieces, p ∈ (e.labels.take k).filterMap piece) ∧
      store (e.state k) = pieces.flatten := by
  induction k with
  | zero =>
    refine ⟨[], fun _ hp => (nomatch hp), ?_⟩
    rw [e.start, hinit]
    rfl
  | succ k ih =>
    obtain ⟨pieces, hcarried, hstore⟩ := ih (by omega)
    obtain ⟨l, hl⟩ := e.exists_label (show k < e.labels.length by omega)
    obtain ⟨more, hmore, hnext⟩ := hstep _ l _ (e.steps hl)
    have htake : e.labels.take (k + 1) = e.labels.take k ++ [l] := by
      rw [List.take_add_one, hl]
      rfl
    have hnew : ∀ p ∈ more, p ∈ (e.labels.take (k + 1)).filterMap piece := by
      intro p hp
      rw [htake, List.filterMap_append]
      exact List.mem_append_right _ (List.mem_filterMap.mpr ⟨l, List.mem_singleton_self l, hmore p hp⟩)
    rcases hnext with hbehind | halone
    · refine ⟨pieces ++ more, fun p hp => ?_, ?_⟩
      · rcases List.mem_append.mp hp with hp | hp
        · rw [htake, List.filterMap_append]
          exact List.mem_append_left _ (hcarried p hp)
        · exact hnew p hp
      · rw [hbehind, hstore, List.flatten_append]
    · exact ⟨more, hnew, halone⟩

end Execution

/-! ## Executions from labels -/

theorem run_append (M : LabelledSystem S L) (s : S) (as bs : List L) :
    M.run s (as ++ bs) = (M.run s as).bind fun s' => M.run s' bs := by
  induction as generalizing s with
  | nil => rfl
  | cons a as ih =>
    rw [List.cons_append, run, run, Option.bind_assoc]
    exact congrArg _ (funext fun s' => ih s')

/-- The execution of a list of labels that can be taken. -/
def Execution.ofRun (M : LabelledSystem S L) (ls : List L) (h : (M.run M.init ls).isSome) :
    M.Execution where
  labels := ls
  state k := (M.run M.init (ls.take k)).getD M.init
  start := rfl
  steps := by
    intro k l hl
    have hsplit : ls = ls.take (k + 1) ++ ls.drop (k + 1) := (List.take_append_drop _ _).symm
    have htake : ls.take (k + 1) = ls.take k ++ [l] := by rw [List.take_add_one, hl]; rfl
    rw [hsplit, run_append] at h
    cases hnext : M.run M.init (ls.take (k + 1)) with
    | none => rw [hnext] at h; cases h
    | some s' =>
      rw [htake, run_append] at hnext
      cases hnow : M.run M.init (ls.take k) with
      | none => rw [hnow] at hnext; cases hnext
      | some s =>
        rw [hnow] at hnext
        have hone : (M.next s l).bind (fun s' => some s') = some s' := hnext
        rw [Option.bind_fun_some] at hone
        exact hone

end LabelledSystem
