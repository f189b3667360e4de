import MojoHttp.Lib.Threads
import Mathlib.Algebra.BigOperators.Group.Finset.Piecewise
import Mathlib.Algebra.Order.BigOperators.Group.Finset

/-!
# Counting threads by where they stand

A word of memory that threads count themselves in and out of is at every instant a sum over the
threads: each adds what its point stands for.

* **`Totals`** — the threads' points add up to a number.
* **`Totals.move`** — a step changes the sum by what its thread's points differ in.
* **`Totals.eq_zero`**, **`Totals.weigh_le`**, **`Totals.card_le`** — what the sum says of who stands where.
-/

namespace Threads

variable {T σ Pc : Type*}

/-- What a thread adds: nothing when it is in no call. -/
def weigh (w : Pc → Int) (p : Option Pc) : Int := p.elim 0 w

/-- The points of all threads add up to `n`. -/
def Totals (s : State T σ Pc) (w : Pc → Int) (n : Int) : Prop :=
  ∃ F : Finset T, (∀ t, t ∉ F → s.pc t = none) ∧ ∑ t ∈ F, weigh w (s.pc t) = n

variable {s : State T σ Pc} {w : Pc → Int} {n : Int}

theorem totals_init (mem : σ) (w : Pc → Int) :
    Totals (⟨mem, fun _ => none⟩ : State T σ Pc) w 0 := ⟨∅, fun _ _ => rfl, Finset.sum_empty⟩

/-- One point of a family is exchanged. -/
theorem sum_update_eq {ι : Type*} [DecidableEq ι] {F : Finset ι} {i : ι} (hi : i ∈ F) (f : ι → Int)
    (b : Int) : ∑ x ∈ F, Function.update f i b x = ∑ x ∈ F, f x - f i + b := by
  have hnew := Finset.sum_update_of_mem hi f b
  have hold := Finset.add_sum_erase F f hi
  rw [Finset.sdiff_singleton_eq_erase] at hnew
  omega

/-- **A step of a thread.** -/
theorem Totals.move [DecidableEq T] (h : Totals s w n) (t : T) (mem : σ) (p : Option Pc) :
    Totals (s.move t mem p) w (n - weigh w (s.pc t) + weigh w p) := by
  obtain ⟨F, hout, hsum⟩ := h
  refine ⟨insert t F, fun u hu => ?_, ?_⟩
  · rw [Finset.mem_insert, not_or] at hu
    rw [s.move_pc_of_ne _ _ hu.1]
    exact hout u hu.2
  · have hfun : (fun u => weigh w ((s.move t mem p).pc u)) =
        Function.update (fun u => weigh w (s.pc u)) t (weigh w p) := by
      funext u
      rcases eq_or_ne u t with rfl | hne
      · rw [s.move_pc_self, Function.update_self]
      · rw [s.move_pc_of_ne _ _ hne, Function.update_of_ne hne]
    -- a thread outside of `F` adds nothing
    have hinsert : ∑ u ∈ insert t F, weigh w (s.pc u) = ∑ u ∈ F, weigh w (s.pc u) := by
      refine Finset.sum_insert_of_eq_zero_if_notMem fun hnot => ?_
      rw [hout t hnot]
      rfl
    rw [hfun, sum_update_eq (Finset.mem_insert_self t F), hinsert, hsum]

/-- A step that leaves the sum as it was, for a word that it leaves as it was; or changes both by as
much. -/
theorem Totals.step [DecidableEq T] (h : Totals s w n) {t : T} {mem : σ} {p : Option Pc} {n' : Int}
    (hn : n' + weigh w (s.pc t) = n + weigh w p) : Totals (s.move t mem p) w n' := by
  have hmove := h.move t mem p
  rwa [show n - weigh w (s.pc t) + weigh w p = n' by omega] at hmove

/-- Nobody stands where it counts. -/
theorem Totals.eq_zero (h : Totals s w n) (hzero : ∀ t pc, s.pc t = some pc → w pc = 0) : n = 0 := by
  obtain ⟨F, -, hsum⟩ := h
  rw [← hsum]
  refine Finset.sum_eq_zero fun t _ => ?_
  cases hpc : s.pc t with
  | none => rfl
  | some pc => exact hzero t pc hpc

/-- Nobody takes anything off. -/
theorem Totals.nonneg (h : Totals s w n) (hpos : ∀ t pc, s.pc t = some pc → 0 ≤ w pc) : 0 ≤ n := by
  obtain ⟨F, -, hsum⟩ := h
  rw [← hsum]
  refine Finset.sum_nonneg fun t _ => ?_
  cases hpc : s.pc t with
  | none => exact Int.le_refl 0
  | some pc => exact hpos t pc hpc

/-- A thread adds no more than there is. -/
theorem Totals.weigh_le (h : Totals s w n) (hpos : ∀ pc, 0 ≤ w pc) (t : T) : weigh w (s.pc t) ≤ n := by
  obtain ⟨F, hout, hsum⟩ := h
  have hnonneg : ∀ u ∈ F, 0 ≤ weigh w (s.pc u) := by
    intro u _
    cases s.pc u with
    | none => exact Int.le_refl 0
    | some pc => exact hpos pc
  by_cases ht : t ∈ F
  · rw [← hsum]
    exact Finset.single_le_sum hnonneg ht
  · rw [hout t ht, ← hsum]
    exact Finset.sum_nonneg hnonneg

/-- The sum counts each of the threads `G` that stand where it counts. -/
theorem Totals.card_le (h : Totals s w n) (hpos : ∀ pc, 0 ≤ w pc) (G : Finset T)
    (hG : ∀ t ∈ G, ∃ pc, s.pc t = some pc ∧ 1 ≤ w pc) : (G.card : Int) ≤ n := by
  obtain ⟨F, hout, hsum⟩ := h
  have hsub : G ⊆ F := by
    intro t ht
    by_contra hnot
    have ⟨pc, hpc, _⟩ := hG t ht
    rw [hout t hnot] at hpc
    cases hpc
  have hone : ∀ t ∈ G, 1 ≤ weigh w (s.pc t) := by
    intro t ht
    have ⟨pc, hpc, hle⟩ := hG t ht
    rw [hpc]
    exact hle
  calc (G.card : Int) = ∑ t ∈ G, 1 := by simp
    _ ≤ ∑ t ∈ G, weigh w (s.pc t) := Finset.sum_le_sum hone
    _ ≤ ∑ t ∈ F, weigh w (s.pc t) := by
        refine Finset.sum_le_sum_of_subset_of_nonneg hsub fun t _ _ => ?_
        cases s.pc t with
        | none => exact Int.le_refl 0
        | some pc => exact hpos pc
    _ = n := hsum

end Threads
