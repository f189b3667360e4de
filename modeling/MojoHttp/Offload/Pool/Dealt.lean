import MojoHttp.Offload.Pool.Rings
import Mathlib.Data.Finset.Card
import Mathlib.Data.List.Induction

/-!
# A pool whose threads are dealt

The threads register one after another before any of them runs, so thread `i` is handed record `i`.

* **`init_lane`** — each lane counts the threads dealt on it, and is otherwise fresh.
* **`init_rec`** — a thread that got a channel has its record, under its lane.
* **`deal_ids`** — the id its thread is given.
-/

namespace MojoHttp

namespace Offload

namespace Pool

variable {c : Setup}

@[simp] theorem setLane_self (m : Mem) (lane : Nat) (f : Lane → Lane) :
    (m.setLane lane f).lanes lane = f (m.lanes lane) := Function.update_self ..

theorem setLane_of_ne (m : Mem) {lane lane' : Nat} (f : Lane → Lane) (h : lane' ≠ lane) :
    (m.setLane lane f).lanes lane' = m.lanes lane' := Function.update_of_ne h ..

@[simp] theorem setLane_recs (m : Mem) (lane : Nat) (f : Lane → Lane) :
    (m.setLane lane f).recs = m.recs := rfl

@[simp] theorem setRec_self (m : Mem) (t : Nat) (f : Rec → Rec) :
    (m.setRec t f).recs t = f (m.recs t) := Function.update_self ..

theorem setRec_of_ne (m : Mem) {t t' : Nat} (f : Rec → Rec) (h : t' ≠ t) :
    (m.setRec t f).recs t' = m.recs t' := Function.update_of_ne h ..

@[simp] theorem setRec_lanes (m : Mem) (t : Nat) (f : Rec → Rec) : (m.setRec t f).lanes = m.lanes := rfl

/-! ## One registration -/

theorem register_lanes (m : Mem) (lane : Nat) (channel : Bool) :
    (registerThread c m lane channel).1.lanes =
      (m.setLane lane fun l => { l with threads := l.threads + 1 }).lanes := by
  unfold registerThread
  dsimp only
  repeat' split
  all_goals rfl

theorem register_handed (m : Mem) (lane : Nat) (channel : Bool) (hcap : c.cap ≠ 0) :
    (registerThread c m lane channel).1.handed = m.handed + 1 := by
  unfold registerThread
  dsimp only
  rw [if_neg hcap]
  repeat' split
  all_goals rfl

/-- The record of the id that was handed out, if the thread gets one. -/
theorem register_recs (m : Mem) (lane : Nat) (channel : Bool) (i : Nat) :
    (registerThread c m lane channel).1.recs i =
      if i = m.handed ∧ i < c.cap ∧ channel = true then ⟨lane, .running, 0, false, []⟩
      else m.recs i := by
  unfold registerThread
  dsimp only
  split
  · rename_i hcap
    rw [if_neg (by omega)]
    rfl
  · split
    · rename_i hfull
      rw [if_neg (by omega)]
      rfl
    · rename_i hfull
      cases channel with
      | true =>
        rcases eq_or_ne i m.handed with rfl | hne
        · have htrue : m.handed = m.handed ∧ m.handed < c.cap ∧ true = true := ⟨rfl, by omega, rfl⟩
          rw [if_pos htrue, if_pos rfl]
          exact Function.update_self ..
        · have hfalse : ¬ (i = m.handed ∧ i < c.cap ∧ true = true) := fun h => hne h.1
          rw [if_neg hfalse, if_pos rfl]
          exact Function.update_of_ne hne _ _
      | false =>
        have hfalse : ¬ (i = m.handed ∧ i < c.cap ∧ false = true) := fun h => nomatch h.2.2
        rw [if_neg hfalse]
        rfl

theorem register_rest (m : Mem) (lane : Nat) (channel : Bool) :
    (registerThread c m lane channel).1.life = m.life ∧
      (registerThread c m lane channel).1.pilled = m.pilled := by
  unfold registerThread
  dsimp only
  repeat' split
  all_goals exact ⟨rfl, rfl⟩

/-! ## The whole dealing -/

theorem deal_lanes (ts : List (Nat × Bool)) (m : Mem) (lane : Nat) :
    (deal c ts m).1.lanes lane = { m.lanes lane with
      threads := (m.lanes lane).threads + (ts.filter fun t => t.1 == lane).length } := by
  induction ts generalizing m with
  | nil => simp [deal]
  | cons t ts ih =>
    show (deal c ts (registerThread c m t.1 t.2).1).1.lanes lane = _
    rw [ih, register_lanes]
    rcases eq_or_ne lane t.1 with rfl | hne
    · rw [setLane_self, List.filter_cons_of_pos (by simp)]
      simp only [List.length_cons]
      congr 1
      push_cast
      omega
    · rw [setLane_of_ne _ _ hne, List.filter_cons_of_neg (by simpa using hne.symm)]

/-- The threads of `ts` are handed the ids from `n` on. -/
theorem deal_recs (ts : List (Nat × Bool)) (m : Mem) (n : Nat) (hn : c.cap ≠ 0 → m.handed = n)
    (i : Nat) : (deal c ts m).1.recs i =
      if n ≤ i ∧ i < c.cap ∧ (ts.getD (i - n) (0, false)).2 = true then
        ⟨(ts.getD (i - n) (0, false)).1, .running, 0, false, []⟩
      else m.recs i := by
  induction ts generalizing m n with
  | nil => simp [deal]
  | cons t ts ih =>
    show (deal c ts (registerThread c m t.1 t.2).1).1.recs i = _
    have hnext : c.cap ≠ 0 → (registerThread c m t.1 t.2).1.handed = n + 1 := fun hcap => by
      rw [register_handed m _ _ hcap, hn hcap]
    rw [ih _ (n + 1) hnext, register_recs]
    by_cases hcap : i < c.cap
    · have hhanded : m.handed = n := hn (by omega)
      rcases Nat.lt_trichotomy i n with hlt | rfl | hgt
      · rw [if_neg (by omega), if_neg (by omega), if_neg (by omega)]
      · -- its own turn
        rw [if_neg (by omega), hhanded, Nat.sub_self, List.getD_cons_zero]
        simp [hcap]
      · obtain ⟨d, hd⟩ : ∃ d, i - n = d + 1 := ⟨i - n - 1, by omega⟩
        rw [hd, List.getD_cons_succ, show i - (n + 1) = d by omega]
        simp only [hcap, show n + 1 ≤ i by omega, show n ≤ i by omega, true_and]
        split
        · rfl
        · rw [if_neg (by omega)]
    · rw [if_neg (by omega), if_neg (by omega), if_neg (by omega)]

theorem deal_rest (ts : List (Nat × Bool)) (m : Mem) :
    (deal c ts m).1.life = m.life ∧ (deal c ts m).1.pilled = m.pilled := by
  induction ts generalizing m with
  | nil => exact ⟨rfl, rfl⟩
  | cons t ts ih =>
    obtain ⟨hlife, hpilled⟩ := register_rest (c := c) m t.1 t.2
    exact ⟨(ih _).1.trans hlife, (ih _).2.trans hpilled⟩

/-- **A lane of a dealt pool.** -/
theorem init_lane (lane : Nat) :
    (Mem.init c).lanes lane = { Lane.fresh with threads := c.dealtOn lane } := by
  unfold Mem.init Setup.dealtOn
  rw [deal_lanes]
  simp [Mem.fresh, Lane.fresh]

/-- **A record of a dealt pool.** -/
theorem init_rec (i : Nat) : (Mem.init c).recs i =
    if c.own i then ⟨c.lane i, .running, 0, false, []⟩ else .fresh := by
  unfold Mem.init
  rw [deal_recs _ _ 0 (fun _ => rfl)]
  simp [Setup.own, Setup.lane, Mem.fresh]

theorem init_pilled : (Mem.init c).pilled = [] := (deal_rest c.threads .fresh).2

theorem init_rings : (Mem.init c).rings = fun _ => ⟨Ring.init, [], []⟩ := by
  funext lane
  show ((Mem.init c).lanes lane).ring = _
  rw [init_lane]
  rfl

/-- How many threads a lane has. -/
theorem dealtOn_eq (lane : Nat) : c.dealtOn lane =
    ((Finset.range c.threads.length).filter fun i => c.lane i = lane).card := by
  have hlist : ∀ ts : List (Nat × Bool), (ts.filter fun t => t.1 == lane).length =
      ((Finset.range ts.length).filter fun i => (ts.getD i (0, false)).1 = lane).card := by
    intro ts
    induction ts using List.reverseRecOn with
    | nil => rfl
    | append_singleton ts t ih =>
      rw [List.filter_append, List.length_append, ih, List.length_append, List.length_singleton,
        Finset.range_add_one, Finset.filter_insert]
      have hold : (Finset.range ts.length).filter (fun i => ((ts ++ [t]).getD i (0, false)).1 = lane) =
          (Finset.range ts.length).filter fun i => (ts.getD i (0, false)).1 = lane := by
        refine Finset.filter_congr fun i hi => ?_
        rw [List.getD_append _ _ _ _ (Finset.mem_range.mp hi)]
      rw [List.getD_append_right _ _ _ _ (Nat.le_refl _), Nat.sub_self, hold]
      by_cases h : t.1 = lane
      · simp [h]
      · simp [h]
  exact hlist c.threads

/-- A thread with a record is a dealt one, and `registered_threads` counts it. -/
theorem lt_registered {i : Nat} (h : c.own i = true) : i < c.registered := by
  have hown : i < c.cap ∧ (c.threads.getD i (0, false)).2 = true := by
    simpa [Setup.own] using h
  have hlen : i < c.threads.length := by
    by_contra hge
    rw [List.getD_eq_default _ _ (by omega)] at hown
    exact nomatch hown.2
  exact Nat.lt_min.mpr ⟨hlen, hown.1⟩

end Pool

end Offload

end MojoHttp
