import MojoHttp.Supervisor
import Mathlib.Data.List.Pairwise

/-!
# The table of child PIDs

Position is the worker index: an entry above 0 is the PID of the one worker that holds the index and
is not reaped yet.

* **`Table`** — the entries and the workers that are not reaped name each other.
* **`Table.one_of_index`** — at most one worker of an index is not reaped.
* **`Table.reap`**, **`Table.spawn`** — reaping a worker clears its entry, and a fork fills one that
  is vacant.
-/

namespace MojoHttp.Supervisor

/-! ## One worker -/

@[simp] theorem Worker.kill_pid (pid : ℤ) (sig : ℕ) (w : Worker) : (w.kill pid sig).pid = w.pid := by
  unfold Worker.kill; split <;> rfl

@[simp] theorem Worker.kill_index (pid : ℤ) (sig : ℕ) (w : Worker) :
    (w.kill pid sig).index = w.index := by
  unfold Worker.kill; split <;> rfl

@[simp] theorem Worker.kill_told (pid : ℤ) (sig : ℕ) (w : Worker) : (w.kill pid sig).told = w.told := by
  unfold Worker.kill; split <;> rfl

@[simp] theorem Worker.kill_phase (pid : ℤ) (sig : ℕ) (w : Worker) :
    (w.kill pid sig).phase = w.phase := by
  unfold Worker.kill; split <;> rfl

@[simp] theorem Worker.exit_pid (pid : ℤ) (status : ℕ) (w : Worker) :
    (w.exit pid status).pid = w.pid := by
  unfold Worker.exit; split <;> rfl

@[simp] theorem Worker.exit_index (pid : ℤ) (status : ℕ) (w : Worker) :
    (w.exit pid status).index = w.index := by
  unfold Worker.exit; split <;> rfl

theorem Worker.live_of_running {w : Worker} (h : w.phase = .running) : w.Live :=
  fun hreaped => Phase.noConfusion (h.symm.trans hreaped)

theorem Worker.live_of_exited {w : Worker} {status : ℕ} (h : w.phase = .exited status) : w.Live :=
  fun hreaped => Phase.noConfusion (h.symm.trans hreaped)

theorem Worker.exit_live (pid : ℤ) (status : ℕ) (w : Worker) : (w.exit pid status).Live ↔ w.Live := by
  unfold Worker.exit
  split
  · rename_i hrunning
    exact iff_of_true (Worker.live_of_exited rfl) (Worker.live_of_running hrunning.2)
  · exact Iff.rfl

/-- A worker whose PID is reaped is not live. -/
theorem Worker.reap_live {pid : ℤ} {w : Worker} (h : (w.reap pid).Live) :
    w.reap pid = w ∧ w.pid ≠ pid := by
  by_cases hpid : w.pid = pid
  · exact absurd (show (w.reap pid).phase = .reaped by rw [Worker.reap, if_pos hpid]) h
  · exact ⟨if_neg hpid, hpid⟩

/-- Reaping a child that is no worker leaves the workers as they are. -/
theorem map_reap_other {workers : List Worker} {pid : ℤ}
    (hother : ∀ w ∈ workers, w.Live → w.pid ≠ pid) : workers.map (Worker.reap pid) = workers := by
  refine (List.map_congr_left fun w hw => ?_).trans (List.map_id workers)
  rw [Worker.reap, id]
  split
  · rename_i hpid
    have hreaped : w.phase = .reaped := by
      by_contra hlive
      exact hother w hw hlive hpid
    rw [← hreaped]
  · rfl

/-! ## The table and the workers -/

structure Table (pids : List ℤ) (workers : List Worker) : Prop where
  named : ∀ w ∈ workers, w.Live → 0 < w.pid ∧ ∃ i : ℕ, w.index = i ∧ pids[i]? = some w.pid
  held : ∀ (i : ℕ) p, pids[i]? = some p → 0 < p → ∃ w ∈ workers, w.Live ∧ w.pid = p ∧ w.index = i
  distinct : workers.Pairwise fun w w' => w.Live → w'.Live → w.pid ≠ w'.pid

namespace Table

variable {pids : List ℤ} {workers : List Worker}

theorem nil : Table [] [] where
  named _ h := nomatch h
  held _ _ h := nomatch h
  distinct := List.Pairwise.nil

theorem eq_of_pid (h : Table pids workers) {w w' : Worker} (hw : w ∈ workers) (hw' : w' ∈ workers)
    (hlive : w.Live) (hlive' : w'.Live) (hpid : w.pid = w'.pid) : w = w' := by
  by_contra hne
  have hsymm : Std.Symm fun w w' : Worker => w.Live → w'.Live → w.pid ≠ w'.pid :=
    ⟨fun _ _ hdistinct ha hb => (hdistinct hb ha).symm⟩
  exact h.distinct.forall hw hw' hne hlive hlive' hpid

/-- **At most one worker of an index is not reaped.** -/
theorem one_of_index (h : Table pids workers) :
    workers.Pairwise fun w w' => w.Live → w'.Live → w.index ≠ w'.index := by
  refine h.distinct.imp_of_mem fun {w w'} hw hw' hdistinct hlive hlive' hindex => ?_
  obtain ⟨-, i, hi, hpid⟩ := h.named w hw hlive
  obtain ⟨-, i', hi', hpid'⟩ := h.named w' hw' hlive'
  have hsame : i = i' := by omega
  rw [← hsame, hpid] at hpid'
  exact hdistinct hlive hlive' (Option.some.inj hpid')

/-- Without an entry above 0 every worker is reaped. -/
theorem reaped_of_vacant (h : Table pids workers) (hvacant : pids.countP (0 < ·) = 0) :
    ∀ w ∈ workers, w.phase = .reaped := by
  intro w hw
  by_contra hlive
  obtain ⟨hpos, i, -, hpid⟩ := h.named w hw hlive
  have hnone := List.countP_eq_zero.mp hvacant _ (List.mem_of_getElem? hpid)
  exact hnone (decide_eq_true hpos)

/-- When every worker is reaped no entry is above 0. -/
theorem vacant_of_reaped (h : Table pids workers) (hreaped : ∀ w ∈ workers, w.phase = .reaped) :
    pids.countP (0 < ·) = 0 := by
  refine List.countP_eq_zero.mpr fun p hp hpos => ?_
  obtain ⟨i, hi⟩ := List.mem_iff_getElem?.mp hp
  obtain ⟨w, hw, hlive, -⟩ := h.held i p hi (of_decide_eq_true hpos)
  exact hlive (hreaped w hw)

/-- What leaves PIDs, indices and reaping alone leaves the table true. -/
theorem map (h : Table pids workers) {f : Worker → Worker} (hpid : ∀ w, (f w).pid = w.pid)
    (hindex : ∀ w, (f w).index = w.index) (hlive : ∀ w, (f w).Live ↔ w.Live) :
    Table pids (workers.map f) where
  named := by
    intro w' hw' hl
    obtain ⟨w, hw, rfl⟩ := List.mem_map.mp hw'
    rw [hpid, hindex]
    exact h.named w hw ((hlive w).mp hl)
  held := by
    intro i p hp hpos
    obtain ⟨w, hw, hl, hwp, hwi⟩ := h.held i p hp hpos
    exact ⟨f w, List.mem_map_of_mem hw, (hlive w).mpr hl, (hpid w).trans hwp, (hindex w).trans hwi⟩
  distinct := by
    rw [List.pairwise_map]
    refine h.distinct.imp fun {w w'} hdistinct hl hl' => ?_
    rw [hpid, hpid]
    exact hdistinct ((hlive w).mp hl) ((hlive w').mp hl')

/-! ### Reaping -/

/-- The first entry with a worker's PID is the one of its index. -/
theorem findIdx?_worker (h : Table pids workers) {w : Worker} (hw : w ∈ workers) (hlive : w.Live) :
    ∃ i : ℕ, w.index = i ∧ pids[i]? = some w.pid ∧ pids.findIdx? (· = w.pid) = some i := by
  obtain ⟨hpos, i, hi, hpid⟩ := h.named w hw hlive
  cases hfind : pids.findIdx? (· = w.pid) with
  | none =>
    have hno := List.findIdx?_eq_none_iff.mp hfind _ (List.mem_of_getElem? hpid)
    simp at hno
  | some j =>
    obtain ⟨hj, hjp, -⟩ := List.findIdx?_eq_some_iff_getElem.mp hfind
    have hentry : pids[j]? = some w.pid :=
      (List.getElem?_eq_getElem hj).trans (congrArg some (of_decide_eq_true hjp))
    obtain ⟨w', hw', hl', hp', hi'⟩ := h.held j _ hentry hpos
    have hsame : w' = w := h.eq_of_pid hw' hw hl' hlive hp'
    rw [hsame] at hi'
    exact ⟨j, hi', hentry, rfl⟩

/-- No entry is the PID of a child that is no worker. -/
theorem findIdx?_other (h : Table pids workers) {pid : ℤ} (hpos : 0 < pid)
    (hother : ∀ w ∈ workers, w.Live → w.pid ≠ pid) : pids.findIdx? (· = pid) = none := by
  refine List.findIdx?_eq_none_iff.mpr fun p hp => ?_
  obtain ⟨i, hi⟩ := List.mem_iff_getElem?.mp hp
  refine decide_eq_false fun hpp => ?_
  obtain ⟨w, hw, hlive, hwp, -⟩ := h.held i p hi (hpp ▸ hpos)
  exact hother w hw hlive (hwp.trans hpp)

/-- **Reaping a worker and clearing its entry.** -/
theorem reap (h : Table pids workers) {w : Worker} (hw : w ∈ workers) (hlive : w.Live) {i : ℕ}
    (hi : w.index = i) : Table (pids.set i (-1)) (workers.map (Worker.reap w.pid)) where
  named := by
    intro v' hv' hl
    obtain ⟨v, hv, rfl⟩ := List.mem_map.mp hv'
    obtain ⟨hsame, hvp⟩ := Worker.reap_live hl
    rw [hsame] at hl ⊢
    obtain ⟨hpos, j, hj, hpid⟩ := h.named v hv hl
    obtain ⟨-, i', hi', hpidw⟩ := h.named w hw hlive
    have hne : i ≠ j := by
      intro heq
      have hij : i' = j := by omega
      rw [hij, hpid] at hpidw
      exact hvp (Option.some.inj hpidw)
    exact ⟨hpos, j, hj, by rw [List.getElem?_set_ne hne, hpid]⟩
  held := by
    intro j p hp hpos
    have hne : i ≠ j := by
      intro heq
      rw [heq, List.getElem?_set_self'] at hp
      cases hj : pids[j]? with
      | none => rw [hj] at hp; cases hp
      | some q =>
        rw [hj] at hp
        have hminus : -1 = p := Option.some.inj hp
        omega
    rw [List.getElem?_set_ne hne] at hp
    obtain ⟨v, hv, hl, hvp, hvi⟩ := h.held j p hp hpos
    have hother : v.pid ≠ w.pid := by
      intro heq
      have hsame := h.eq_of_pid hv hw hl hlive heq
      rw [hsame] at hvi
      omega
    have hsame : v.reap w.pid = v := if_neg hother
    exact ⟨v, List.mem_map.mpr ⟨v, hv, hsame⟩, hl, hvp, hvi⟩
  distinct := by
    rw [List.pairwise_map]
    refine h.distinct.imp fun {a b} hdistinct hl hl' => ?_
    rw [(Worker.reap_live hl).1, (Worker.reap_live hl').1] at *
    exact hdistinct hl hl'

/-! ### Forking -/

/-- **A fork into an index that was vacant.** -/
theorem spawn (h : Table pids workers) {pids' : List ℤ} {w : Worker} {i : ℕ} (hi : w.index = i)
    (hlive : w.Live) (hpos : 0 < w.pid) (hfresh : ∀ v ∈ workers, v.Live → v.pid ≠ w.pid)
    (hvacant : ∀ p, pids[i]? = some p → p ≤ 0) (hentry : pids'[i]? = some w.pid)
    (hrest : ∀ j, j ≠ i → pids'[j]? = pids[j]?) : Table pids' (workers ++ [w]) where
  named := by
    intro v hv hl
    rcases List.mem_append.mp hv with hv | hv
    · obtain ⟨hvpos, j, hj, hpid⟩ := h.named v hv hl
      have hne : j ≠ i := by
        intro heq
        rw [heq] at hpid
        have := hvacant _ hpid
        omega
      exact ⟨hvpos, j, hj, by rw [hrest j hne, hpid]⟩
    · rw [List.mem_singleton.mp hv]
      exact ⟨hpos, i, hi, hentry⟩
  held := by
    intro j p hp hppos
    by_cases hij : j = i
    · rw [hij, hentry] at hp
      exact ⟨w, List.mem_append_right _ (List.mem_singleton_self w), hlive, Option.some.inj hp,
        hij ▸ hi⟩
    · rw [hrest j hij] at hp
      obtain ⟨v, hv, hl, hvp, hvi⟩ := h.held j p hp hppos
      exact ⟨v, List.mem_append_left _ hv, hl, hvp, hvi⟩
  distinct := by
    refine List.pairwise_append.mpr ⟨h.distinct, List.pairwise_singleton .., ?_⟩
    intro v hv w' hw' hl _
    rw [List.mem_singleton.mp hw']
    exact hfresh v hv hl

end Table

end MojoHttp.Supervisor
