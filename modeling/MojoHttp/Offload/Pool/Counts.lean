import MojoHttp.Offload.Pool.Parked
import MojoHttp.Lib.Totals
import Mathlib.Algebra.BigOperators.Ring.Finset

/-!
# The wake words of a lane

`submit` reads who is idle off a lane's words, which the threads keep: each counts itself as a
spinner, or as parked, and a parked thread with a channel is uncounted by whoever moves its state
word off PARKED.

* **`Counted`** — each word is a sum over the threads; for the parked ones with a channel the words
  PARKED are a part of it.
* **`counted_of_execution`** — at every instant.
-/

namespace MojoHttp

namespace Offload

open Threads (Next Program Totals weigh)

namespace Pool

variable {c : Setup}

/-! ## What a point stands for -/

def Look.spins : Look → Int
  | .next _ true => 1
  | _ => 0

/-- How often a thread is counted among its lane's spinners. -/
def Step.spins : Step → Int
  | .enter look => look.spins
  | .pill look => look.spins
  | .clock look => look.spins
  | .pollLoad look _ => look.spins
  | .pollStore look _ => look.spins
  | .pollOwn look _ => look.spins
  | .pollSocket look _ => look.spins
  | .pollPoke look _ => look.spins
  | .pop look _ _ => look.spins
  | .spinUp _ spinning => if spinning then 1 else 0
  | .spinBack spinning => if spinning then 2 else 1
  | .spinDown _ => 1
  | _ => 0

/-- A call begins without the lane's idle spin. -/
def Step.Begins : Step → Prop
  | .enter look => look.spins = 0
  | .pill look => look.spins = 0
  | _ => True

/-- Whether a thread is counted among those parked on its lane's socket. -/
def Step.counted : Step → Int
  | .sockPop _ => 1
  | .sockRecv => 1
  | .sockPoke => 1
  | .sockUncount _ _ => 1
  | _ => 0

/-- A thread between its change of its state word and the change of the count. -/
def Step.owed : Step → Int
  | .count => -1
  | .unparkCount _ => 1
  | .leaveCount _ => 1
  | _ => 0

/-- The same for a waker. -/
def Wake.owed : Wake → Int
  | .uncount _ => 1
  | _ => 0

def Pc.spins (c : Setup) (lane : Nat) : Pc → Int
  | .thread i step => if c.lane i = lane then step.spins else 0
  | _ => 0

def Pc.counted (c : Setup) (lane : Nat) : Pc → Int
  | .thread i step => if c.lane i = lane then step.counted else 0
  | _ => 0

def Pc.owed (c : Setup) (lane : Nat) : Pc → Int
  | .thread i step => if c.lane i = lane then step.owed else 0
  | .wake lane' _ w => if lane' = lane then w.owed else 0
  | _ => 0

/-- What a record adds to the threads whose word says PARKED. -/
def isParked (r : Rec) : Int := if r.state = .parked then 1 else 0

/-- How many threads of a lane that have a channel say PARKED. -/
def parkedRecs (c : Setup) (m : Mem) (lane : Nat) : Nat :=
  ((Finset.range c.threads.length).filter fun i =>
    c.own i = true ∧ c.lane i = lane ∧ (m.recs i).state = .parked).card

/-! ## A thread's own step -/

/-- What a point stands for in a lane. -/
structure Weighs (c : Setup) (lane : Nat) (p : Option Pc) (spins counted owed : Int) : Prop where
  spins : weigh (Pc.spins c lane) p = spins
  counted : weigh (Pc.counted c lane) p = counted
  owed : weigh (Pc.owed c lane) p = owed

/-- The words of a thread's lane change with what its points stand for. -/
structure Tallies (c : Setup) (i : Nat) (step : Step) (m : Mem) (r : Mem × Next Pc Res) : Prop where
  spinners : (r.1.lanes (c.lane i)).spinners + step.spins =
    (m.lanes (c.lane i)).spinners + weigh (Pc.spins c (c.lane i)) r.2.point
  parked : (r.1.lanes (c.lane i)).parked + step.counted =
    (m.lanes (c.lane i)).parked + weigh (Pc.counted c (c.lane i)) r.2.point
  parkedReg : (r.1.lanes (c.lane i)).parkedReg - isParked (r.1.recs i) + step.owed =
    (m.lanes (c.lane i)).parkedReg - isParked (m.recs i) + weigh (Pc.owed c (c.lane i)) r.2.point

section

variable {i : Nat} {m : Mem} {step : Step} {r : Mem × Next Pc Res}

theorem weighs_none {lane : Nat} : Weighs c lane none 0 0 0 := ⟨rfl, rfl, rfl⟩

/-- A point of a wake but the one before its count. -/
theorem weighs_wake {lane lane' : Nat} {after : After} {w : Wake} (h : w.owed = 0) :
    Weighs c lane (some (.wake lane' after w)) 0 0 0 := by
  refine ⟨rfl, rfl, ?_⟩
  show (if lane' = lane then w.owed else 0) = 0
  rw [h, ite_self]

theorem weighs_noneRegistered {lane lane' : Nat} {after : After} :
    Weighs c lane (noneRegistered lane' after).point 0 0 0 := by
  cases after with
  | sent => exact weighs_none
  | _ => exact weighs_wake rfl

theorem weighs_scan {lane lane' : Nat} {after : After} {t : Nat} {best : Option (Nat × Nat)} :
    Weighs c lane (scan c lane' after t best).point 0 0 0 := by
  unfold scan
  split
  · exact weighs_wake rfl
  · split
    · exact weighs_wake rfl
    · exact weighs_noneRegistered

theorem weighs_agedNext {lane lane' : Nat} {stalled : Nat → Nat → Int → Bool} :
    Weighs c lane (agedNext c lane' stalled).point 0 0 0 := by
  unfold agedNext
  split
  · exact ⟨rfl, rfl, rfl⟩
  · exact weighs_none

theorem weighs_afterWake {lane : Nat} {after : After} :
    Weighs c lane (afterWake c after).point 0 0 0 := by
  cases after with
  | aged => exact weighs_agedNext
  | _ => exact weighs_none

theorem weighs_thread (step : Step) :
    Weighs c (c.lane i) (some (.thread i step)) step.spins step.counted step.owed := by
  constructor
  · exact if_pos rfl
  · exact if_pos rfl
  · exact if_pos rfl

theorem weighs_wakeOne {lane lane' : Nat} {after : After} :
    Weighs c lane (wakeOne c lane' after).point 0 0 0 := weighs_scan

theorem weighs_hand {job : Job} {fromRing : Bool} :
    Weighs c (c.lane i) (hand c i job fromRing).point 0 0 0 := by
  unfold hand
  split
  · exact weighs_thread _
  · exact weighs_none

theorem weighs_found {look : Look} {job : Job} {fromRing : Bool} :
    Weighs c (c.lane i) (found c m i look job fromRing).2.point look.spins 0 0 := by
  unfold found
  split
  · exact weighs_thread _
  · rename_i hnot
    have hzero : look.spins = 0 := by
      match look, hnot with
      | .once, _ => rfl
      | .next _ false, _ => rfl
      | .next t true, h => exact absurd rfl (h t)
    rw [hzero]
    exact weighs_hand

theorem weighs_park : Weighs c (c.lane i) (some (.thread i (park c i))) 0 0 0 := by
  unfold park
  split <;> exact weighs_thread _

theorem weighs_nothing {look : Look} {now : Int} :
    Weighs c (c.lane i) (nothing c i look now).point look.spins 0 0 := by
  unfold nothing
  split
  · exact weighs_none
  · rename_i spinStart spinning
    split
    · -- the spin is announced
      cases spinning <;> split <;> exact weighs_thread _
    · split
      · cases spinning with
        | true => exact weighs_thread _
        | false => exact weighs_park
      · exact weighs_thread _

theorem weighs_unparked {got : Own} : Weighs c (c.lane i) (unparked m i got).2.point 0 0 0 := by
  cases got with
  | pill => exact weighs_none
  | poke => exact weighs_thread _

/-- A step, from what the words become and what the next point stands for. -/
theorem Tallies.of {spins counted owed : Int} (h : Weighs c (c.lane i) r.2.point spins counted owed)
    (hs : (r.1.lanes (c.lane i)).spinners + step.spins = (m.lanes (c.lane i)).spinners + spins)
    (hp : (r.1.lanes (c.lane i)).parked + step.counted = (m.lanes (c.lane i)).parked + counted)
    (hr : (r.1.lanes (c.lane i)).parkedReg - isParked (r.1.recs i) + step.owed =
      (m.lanes (c.lane i)).parkedReg - isParked (m.recs i) + owed) : Tallies c i step m r :=
  ⟨by rw [h.spins, hs], by rw [h.counted, hp], by rw [h.owed, hr]⟩

/-- A step that leaves the words and the record's state as they were. -/
theorem Tallies.quiet (h : Weighs c (c.lane i) r.2.point step.spins step.counted step.owed)
    (hs : (r.1.lanes (c.lane i)).spinners = (m.lanes (c.lane i)).spinners)
    (hp : (r.1.lanes (c.lane i)).parked = (m.lanes (c.lane i)).parked)
    (hr : (r.1.lanes (c.lane i)).parkedReg = (m.lanes (c.lane i)).parkedReg)
    (hst : (r.1.recs i).state = (m.recs i).state) : Tallies c i step m r := by
  refine .of h (by rw [hs]) (by rw [hp]) ?_
  unfold isParked
  rw [hr, hst]

/-- The same, when the whole memory but the ring and the sockets is as it was. -/
theorem Tallies.same (h : Weighs c (c.lane i) r.2.point step.spins step.counted step.owed)
    (hm : r.1 = m) : Tallies c i step m r :=
  .quiet h (by rw [hm]) (by rw [hm]) (by rw [hm]) (by rw [hm])

/-- One lane changed, and none of its wake words. -/
theorem Tallies.lane {f : Lane → Lane} {nx : Next Pc Res}
    (h : Weighs c (c.lane i) nx.point step.spins step.counted step.owed)
    (hf : ∀ l, (f l).spinners = l.spinners ∧ (f l).parked = l.parked ∧ (f l).parkedReg = l.parkedReg) :
    Tallies c i step m (m.setLane (c.lane i) f, nx) := by
  have ⟨hs, hp, hr⟩ := hf (m.lanes (c.lane i))
  exact .quiet h (by rw [setLane_self, hs]) (by rw [setLane_self, hp]) (by rw [setLane_self, hr]) rfl

/-- A look that has found a job. -/
theorem Tallies.found {m' : Mem} {look : Look} {job : Job} {f : Lane → Lane}
    (hlanes : m'.lanes = (m.setLane (c.lane i) f).lanes)
    (hstate : (m'.recs i).state = (m.recs i).state) (hspins : step.spins = look.spins)
    (hcounted : step.counted = 0) (howed : step.owed = 0)
    (hf : ∀ l, (f l).spinners = l.spinners ∧ (f l).parked = l.parked ∧
      (f l).parkedReg = l.parkedReg) :
    Tallies c i step m (Pool.found c m' i look job false) := by
  have ⟨hs, hp, hr⟩ := hf (m.lanes (c.lane i))
  have hlanes' : (Pool.found c m' i look job false).1.lanes = (m.setLane (c.lane i) f).lanes := by
    rw [← hlanes]
    unfold Pool.found
    split
    · rfl
    · exact give_lanes ..
  refine .quiet ?_ ?_ ?_ ?_ (by rw [found_recs, hstate])
  · rw [hspins, hcounted, howed]
    exact weighs_found
  · rw [hlanes', setLane_self, hs]
  · rw [hlanes', setLane_self, hp]
  · rw [hlanes', setLane_self, hr]

/-- A thread that gives its job back and returns, or wakes a sibling first. -/
theorem Tallies.hand {m' : Mem} {job : Job} {fromRing : Bool}
    (hs : (m'.lanes (c.lane i)).spinners + step.spins = (m.lanes (c.lane i)).spinners)
    (hp : (m'.lanes (c.lane i)).parked + step.counted = (m.lanes (c.lane i)).parked)
    (hr : (m'.lanes (c.lane i)).parkedReg = (m.lanes (c.lane i)).parkedReg)
    (howed : step.owed = 0) (hst : (m'.recs i).state = (m.recs i).state) :
    Tallies c i step m (m'.give i job, Pool.hand c i job fromRing) := by
  refine .of weighs_hand ?_ ?_ ?_
  · rw [give_lanes, hs, Int.add_zero]
  · rw [give_lanes, hp, Int.add_zero]
  · unfold isParked
    rw [give_lanes, give_recs, hr, hst, howed]

/-- **A thread's step keeps the words of its lane in step with its points.** -/
theorem thread_tallies {step : Step} (h : step.StateOk (m.recs i).state) (hbegins : step.Begins)
    (hspins : step.spins ≤ (m.lanes (c.lane i)).spinners) : Tallies c i step m (threadStep c m i step) := by
  cases step with
  | enter look =>
    have hzero : look.spins = 0 := hbegins
    simp only [threadStep]
    split
    · exact .same (weighs_thread _) rfl
    · refine .of weighs_none ?_ rfl rfl
      show _ + look.spins = _
      rw [hzero]
  | pill look =>
    have hzero : look.spins = 0 := hbegins
    simp only [threadStep]
    split
    · refine .of weighs_none ?_ (by simp [Step.counted]) (by simp [Step.owed, isParked])
      show _ + look.spins = _
      rw [hzero, give_lanes]
    · exact .same (weighs_thread _) rfl
  | clock look => exact .same (weighs_thread _) rfl
  | pollLoad look now =>
    simp only [threadStep]
    split <;> exact .same (weighs_thread _) rfl
  | pollStore look now =>
    simp only [threadStep]
    split <;> exact .lane (weighs_thread _) fun _ => ⟨rfl, rfl, rfl⟩
  | pollOwn look now =>
    simp only [threadStep]
    split
    · exact .same (weighs_thread _) rfl
    · exact .quiet (weighs_thread _) rfl rfl rfl (by rw [setRec_self])
    · refine .found (f := id) ?_ (by rw [setRec_self]) rfl rfl rfl fun _ => ⟨rfl, rfl, rfl⟩
      exact (Function.update_eq_self ..).symm
  | pollSocket look now =>
    simp only [threadStep]
    split
    · exact .same (weighs_thread _) rfl
    · exact .lane (weighs_thread _) fun _ => ⟨rfl, rfl, rfl⟩
    · exact .found rfl rfl rfl rfl rfl fun _ => ⟨rfl, rfl, rfl⟩
    · exact .found rfl rfl rfl rfl rfl fun _ => ⟨rfl, rfl, rfl⟩
  | pollPoke look now => exact .lane (weighs_thread _) fun _ => ⟨rfl, rfl, rfl⟩
  | pop look now pc =>
    refine .lane (f := fun l => { l with ring := _ }) ?_ fun _ => ⟨rfl, rfl, rfl⟩
    unfold popBehind
    split
    · exact weighs_thread _
    · split
      · exact weighs_thread _
      · rename_i hnot
        have hzero : look.spins = 0 := by
          cases look with
          | once => rfl
          | next t more =>
            cases more with
            | false => rfl
            | true => exact absurd rfl (hnot t)
        show Weighs c (c.lane i) _ look.spins 0 0
        rw [hzero]
        exact weighs_hand
    · exact weighs_nothing
  | spinUp now spinning =>
    simp only [threadStep]
    split
    · -- the first: a thread that spins already would not find the word at 0
      rename_i hzero
      have hnot : spinning = false := by
        cases spinning with
        | false => rfl
        | true =>
          change (1 : Int) ≤ _ at hspins
          omega
      subst hnot
      refine .of (weighs_thread _) ?_ (by rw [setLane_self]; rfl) (by rw [setLane_self]; rfl)
      rw [setLane_self]
      show _ + 1 + (0 : Int) = _ + 1
      omega
    · refine .of (weighs_thread _) ?_ (by rw [setLane_self]; rfl) (by rw [setLane_self]; rfl)
      rw [setLane_self]
      cases spinning with
      | true => exact Int.add_assoc ..
      | false => exact Int.add_zero _
  | spinBack spinning =>
    simp only [threadStep]
    have hpoint : Weighs c (c.lane i) (some (.thread i (if spinning then .spinDown none else park c i)))
        (if spinning then 1 else 0) 0 0 := by
      cases spinning with
      | true => exact weighs_thread _
      | false => exact weighs_park
    refine .of hpoint ?_ (by rw [setLane_self]; rfl) (by rw [setLane_self]; rfl)
    rw [setLane_self]
    cases spinning with
    | true =>
      show _ - 1 + (2 : Int) = _ + 1
      omega
    | false =>
      show _ - 1 + (1 : Int) = _ + 0
      omega
  | spinDown found =>
    cases found with
    | none =>
      refine .of weighs_park ?_ (by simp [threadStep, Step.counted])
        (by simp [threadStep, Step.owed])
      simp only [threadStep, setLane_self]
      show _ - 1 + (1 : Int) = _ + 0
      omega
    | some job =>
      refine .hand ?_ (by rw [setLane_self]; exact Int.add_zero _) (by rw [setLane_self]) rfl rfl
      rw [setLane_self]
      exact Int.sub_add_cancel ..
  | chain job pc =>
    refine .lane (f := fun l => { l with ring := _ }) ?_ fun _ => ⟨rfl, rfl, rfl⟩
    unfold chainBehind
    split
    · exact weighs_thread _
    · exact weighs_none
    · exact weighs_wakeOne
  | seqAdd => exact .quiet (weighs_thread _) rfl rfl rfl rfl
  | seqStore seq => exact .quiet (weighs_thread _) rfl rfl rfl (by simp [threadStep])
  | announce =>
    -- the word says PARKED now, and the count is owed
    refine .of (weighs_thread _) rfl rfl ?_
    have hrunning : (m.recs i).state = .running := h
    simp only [threadStep, setRec_self, setRec_lanes]
    unfold isParked
    rw [hrunning]
    show _ - (1 : Int) + 0 = _ - 0 + -1
    omega
  | count =>
    refine .of (weighs_thread _) (by simp [threadStep, Step.spins]) (by simp [threadStep, Step.counted])
      ?_
    simp only [threadStep, setLane_self, setLane_recs]
    show _ + 1 - _ + (-1 : Int) = _ - _ + 0
    omega
  | recheck pc =>
    refine .lane (f := fun l => { l with ring := _ }) ?_ fun _ => ⟨rfl, rfl, rfl⟩
    unfold recheckBehind
    split <;> exact weighs_thread _
  | recheckSocket =>
    simp only [threadStep]
    split
    · exact .same (weighs_thread _) rfl
    all_goals exact .lane (weighs_thread _) fun _ => ⟨rfl, rfl, rfl⟩
  | recheckPoke | pollReset => exact .lane (weighs_thread _) fun _ => ⟨rfl, rfl, rfl⟩
  | block =>
    simp only [threadStep]
    split
    · exact .same (weighs_thread _) rfl
    · exact .quiet (weighs_thread _) rfl rfl rfl (by rw [setRec_self])
  | unpark got | leave job =>
    simp only [threadStep]
    split
    · -- the thread has moved its word off PARKED, and owes the count
      rename_i hparked
      refine .of (weighs_thread _) rfl rfl ?_
      rw [setRec_self, setRec_lanes]
      unfold isParked
      rw [hparked]
      show _ - (0 : Int) + 0 = _ - 1 + 1
      omega
    · exact .same (weighs_thread _) rfl
  | unparkCount got =>
    have hlanes : (unparked (m.setLane (c.lane i) fun l => { l with parkedReg := l.parkedReg - 1 })
        i got).1.lanes = (m.setLane (c.lane i) fun l => { l with parkedReg := l.parkedReg - 1 }).lanes := by
      cases got <;> rfl
    refine .of weighs_unparked ?_ ?_ ?_
    all_goals simp only [threadStep, hlanes, setLane_self, unparked_recs, setLane_recs]
    · rfl
    · rfl
    · show _ - 1 - _ + (1 : Int) = _ - _ + 0
      omega
  | unparkStore got =>
    have hlanes : (unparked (m.setRec i fun r => { r with state := .running }) i got).1.lanes =
        m.lanes := by
      cases got <;> rfl
    have hwoken : (m.recs i).state = .woken := h
    refine .of weighs_unparked ?_ ?_ ?_
    all_goals simp only [threadStep, hlanes, unparked_recs, setRec_self]
    · rfl
    · rfl
    · unfold isParked
      rw [hwoken]
      rfl
  | leaveCount job =>
    refine .of weighs_none ?_ ?_ ?_
    all_goals simp only [threadStep, give_lanes, give_recs, setLane_self, setLane_recs]
    · rfl
    · rfl
    · show _ - 1 - _ + (1 : Int) = _ - _ + 0
      omega
  | leaveRecv job =>
    simp only [threadStep]
    split
    · exact .same (weighs_thread _) rfl
    all_goals exact .quiet (weighs_thread _) rfl rfl rfl (by rw [setRec_self])
  | leavePill job => exact .quiet (weighs_thread _) rfl rfl rfl (by simp [threadStep])
  | leaveStore job =>
    have hwoken : (m.recs i).state = .woken := h
    refine .of weighs_none ?_ ?_ ?_
    all_goals simp only [threadStep, give_lanes, give_recs, setRec_lanes, setRec_self]
    · rfl
    · rfl
    · unfold isParked
      rw [hwoken]
      rfl
  | sockCount =>
    refine .of (weighs_thread _) (by simp [threadStep, Step.spins]) ?_ (by simp [threadStep, Step.owed])
    simp only [threadStep, setLane_self]
    show _ + 1 + (0 : Int) = _ + 1
    omega
  | sockPop pc =>
    refine .lane (f := fun l => { l with ring := _ }) ?_ fun _ => ⟨rfl, rfl, rfl⟩
    unfold sockBehind
    split <;> exact weighs_thread _
  | sockRecv =>
    simp only [threadStep]
    split
    · exact .same (weighs_thread _) rfl
    all_goals exact .lane (weighs_thread _) fun _ => ⟨rfl, rfl, rfl⟩
  | sockPoke => exact .lane (weighs_thread _) fun _ => ⟨rfl, rfl, rfl⟩
  | sockUncount found fromRing =>
    cases found with
    | none =>
      refine .of (weighs_thread _) (by simp [threadStep, Step.spins, Look.spins]) ?_
        (by simp [threadStep, Step.owed])
      simp only [threadStep, setLane_self]
      show _ - 1 + (1 : Int) = _ + 0
      omega
    | some job =>
      refine .hand (by rw [setLane_self]; exact Int.add_zero _) ?_ (by rw [setLane_self]) rfl rfl
      rw [setLane_self]
      exact Int.sub_add_cancel ..
  | unregister =>
    simp only [threadStep]
    split
    · exact .same weighs_none rfl
    · exact .quiet (weighs_thread _) (by simp) (by simp) (by simp) rfl
  | retire =>
    simp only [threadStep]
    split
    · exact .quiet weighs_none rfl rfl rfl (by rw [setRec_self])
    · exact .same weighs_none rfl

end

/-! ## Any step -/

theorem parkedRecs_eq_sum (m : Mem) (lane : Nat) : (parkedRecs c m lane : Int) =
    ∑ i ∈ Finset.range c.threads.length, if Names c lane i then isParked (m.recs i) else 0 := by
  unfold parkedRecs isParked
  rw [Finset.card_filter, Nat.cast_sum]
  refine Finset.sum_congr rfl fun i _ => ?_
  by_cases hn : Names c lane i
  · rw [if_pos hn]
    have hiff : (c.own i = true ∧ c.lane i = lane ∧ (m.recs i).state = .parked) ↔
        (m.recs i).state = .parked := ⟨fun h => h.2.2, fun h => ⟨hn.1, hn.2, h⟩⟩
    rw [if_congr hiff rfl rfl]
    exact Nat.cast_ite ..
  · have hnot : ¬ (c.own i = true ∧ c.lane i = lane ∧ (m.recs i).state = .parked) :=
      fun h => hn ⟨h.1, h.2.1⟩
    rw [if_neg hn, if_neg hnot]
    rfl

theorem lt_of_own {i : Nat} (h : c.own i = true) : i < c.threads.length :=
  Nat.lt_of_lt_of_le (lt_registered h) (Nat.min_le_left ..)

/-- One record's state has changed. -/
theorem parkedRecs_change {m m' : Mem} {t : Nat} (h : ∀ j ≠ t, m'.recs j = m.recs j) (lane : Nat) :
    (parkedRecs c m' lane : Int) - (if Names c lane t then isParked (m'.recs t) else 0) =
      parkedRecs c m lane - if Names c lane t then isParked (m.recs t) else 0 := by
  rw [parkedRecs_eq_sum, parkedRecs_eq_sum]
  have hfun : (fun i => if Names c lane i then isParked (m'.recs i) else 0) =
      Function.update (fun i => if Names c lane i then isParked (m.recs i) else 0) t
        (if Names c lane t then isParked (m'.recs t) else 0) := by
    funext i
    rcases eq_or_ne i t with rfl | hne
    · rw [Function.update_self]
    · rw [Function.update_of_ne hne, h i hne]
  by_cases hn : Names c lane t
  · rw [hfun, Threads.sum_update_eq (Finset.mem_range.mpr (lt_of_own hn.1))]
    omega
  · have hsame : (fun i => if Names c lane i then isParked (m'.recs i) else 0) =
        fun i => if Names c lane i then isParked (m.recs i) else 0 := by
      rw [hfun, if_neg hn]
      funext i
      rcases eq_or_ne i t with rfl | hne
      · rw [Function.update_self, if_neg hn]
      · rw [Function.update_of_ne hne]
    rw [hsame, if_neg hn, if_neg hn]

theorem parkedRecs_congr {m m' : Mem} (h : ∀ j, (m'.recs j).state = (m.recs j).state) (lane : Nat) :
    parkedRecs c m' lane = parkedRecs c m lane := by
  unfold parkedRecs
  simp only [h]

/-- The wake words of a lane change with what the step's points stand for there. -/
structure Balances (c : Setup) (lane : Nat) (m : Mem) (pc : Pc) (r : Mem × Next Pc Res) : Prop where
  spinners : (r.1.lanes lane).spinners + pc.spins c lane =
    (m.lanes lane).spinners + weigh (Pc.spins c lane) r.2.point
  parked : (r.1.lanes lane).parked + pc.counted c lane =
    (m.lanes lane).parked + weigh (Pc.counted c lane) r.2.point
  parkedReg : (r.1.lanes lane).parkedReg - parkedRecs c r.1 lane + pc.owed c lane =
    (m.lanes lane).parkedReg - parkedRecs c m lane + weigh (Pc.owed c lane) r.2.point
  threads : (r.1.lanes lane).threads ≤ (m.lanes lane).threads

theorem found_lanes (m : Mem) (i : Nat) (look : Look) (job : Job) (fromRing : Bool) :
    (found c m i look job fromRing).1.lanes = m.lanes := by
  unfold found
  split
  · rfl
  · exact give_lanes ..

/-- **A thread's step changes its own lane only**, and counts no thread there. -/
theorem thread_lanes (m : Mem) (i : Nat) (step : Step) :
    ∃ l, (threadStep c m i step).1.lanes = Function.update m.lanes (c.lane i) l ∧
      l.threads ≤ (m.lanes (c.lane i)).threads := by
  have hsame : ∀ m' : Mem, m'.lanes = m.lanes → ∃ l,
      m'.lanes = Function.update m.lanes (c.lane i) l ∧
        l.threads ≤ (m.lanes (c.lane i)).threads := by
    intro m' h
    exact ⟨m.lanes (c.lane i), by rw [h, Function.update_eq_self], Int.le_refl _⟩
  have hset : ∀ (m' : Mem) (f : Lane → Lane), m'.lanes = (m.setLane (c.lane i) f).lanes →
      (∀ l, (f l).threads ≤ l.threads) → ∃ l,
        m'.lanes = Function.update m.lanes (c.lane i) l ∧
          l.threads ≤ (m.lanes (c.lane i)).threads := fun m' f h hf => ⟨_, h, hf _⟩
  have hunparked : ∀ (m' : Mem) (got : Own), (unparked m' i got).1.lanes = m'.lanes := by
    intro m' got
    cases got <;> rfl
  cases step with
  | pollStore | pollPoke | pop | spinUp | spinBack | chain | count | recheck | recheckPoke | pollReset
  | sockCount | sockPop | sockPoke => exact hset _ _ rfl fun l => Int.le_refl _
  | pill | unpark | leave | block | leaveRecv | retire =>
    simp only [threadStep]
    split <;> exact hsame _ (by simp)
  | pollOwn =>
    simp only [threadStep]
    split <;> exact hsame _ (by simp [found_lanes])
  | pollSocket =>
    simp only [threadStep]
    split
    · exact hsame _ rfl
    · exact hset _ _ rfl fun l => Int.le_refl _
    · exact hset _ _ (found_lanes ..) fun l => Int.le_refl _
    · exact hset _ _ (found_lanes ..) fun l => Int.le_refl _
  | recheckSocket | sockRecv =>
    simp only [threadStep]
    split
    · exact hsame _ rfl
    all_goals exact hset _ _ rfl fun l => Int.le_refl _
  | unregister =>
    simp only [threadStep]
    split
    · exact hsame _ rfl
    · refine hset _ (fun l => { l with threads := l.threads - 1 }) rfl fun l => ?_
      show l.threads - 1 ≤ l.threads
      omega
  | spinDown found | sockUncount found =>
    cases found with
    | none => exact hset _ _ rfl fun l => Int.le_refl _
    | some job => exact hset _ _ (give_lanes ..) fun l => Int.le_refl _
  | unparkCount => exact hset _ _ (hunparked ..) fun l => Int.le_refl _
  | unparkStore => exact hsame _ (hunparked ..)
  | leaveCount => exact hset _ _ (give_lanes ..) fun l => Int.le_refl _
  | leaveStore => exact hsame _ (give_lanes ..)
  | _ => exact hsame _ rfl

/-- A thread's step, on any lane. -/
theorem thread_balances {s : State} {t : Who} {i : Nat} {step : Step} (hp : Placed c s)
    (hst : Stated c s) (hpc : s.pc t = some (.thread i step)) (hbegins : step.Begins)
    (hspins : step.spins ≤ (s.mem.lanes (c.lane i)).spinners) (lane : Nat) :
    Balances c lane s.mem (.thread i step) (advance c s.mem (.thread i step)) := by
  have ⟨hwho, _, hok⟩ := hp.thread t i step hpc
  subst hwho
  have ⟨l, hlanes, hthreads⟩ := thread_lanes (c := c) s.mem i step
  have hrecs : ∀ j ≠ i, (threadStep c s.mem i step).1.recs j = s.mem.recs j :=
    fun j hj => (thread_of_ne (c := c) s.mem step hj).1
  -- the word of a thread without a channel says RUNNING at all times
  have hstate : step.StateOk (s.mem.recs i).state ∧
      (c.own i = false → isParked (s.mem.recs i) = 0 ∧
        isParked ((threadStep c s.mem i step).1.recs i) = 0) := by
    cases hown : c.own i with
    | true =>
      have hat := hst.own i hown
      rw [hpc] at hat
      exact ⟨hat, nofun⟩
    | false =>
      have hneeds : step.needsOwn = false := by
        rw [Bool.eq_false_iff]
        intro hneeds
        rw [hok.own hneeds] at hown
        cases hown
      have hrunning := hst.other i hown
      refine ⟨?_, fun _ => ?_⟩
      · rw [hrunning]
        cases step <;> first | rfl | cases hneeds
      · rw [thread_recs hneeds hown]
        unfold isParked
        rw [hrunning]
        exact ⟨rfl, rfl⟩
  have hchange := parkedRecs_change (c := c) hrecs lane
  rcases eq_or_ne lane (c.lane i) with rfl | hne
  · have ⟨hs, hpk, hr⟩ := thread_tallies (c := c) hstate.1 hbegins hspins
    refine ⟨?_, ?_, ?_, ?_⟩
    · rw [show Pc.spins c (c.lane i) (.thread i step) = step.spins from if_pos rfl]
      exact hs
    · rw [show Pc.counted c (c.lane i) (.thread i step) = step.counted from if_pos rfl]
      exact hpk
    · rw [show Pc.owed c (c.lane i) (.thread i step) = step.owed from if_pos rfl]
      change _ - (parkedRecs c (threadStep c s.mem i step).1 (c.lane i) : Int) + _ = _ at *
      cases hown : c.own i with
      | true =>
        have hn : Names c (c.lane i) i := ⟨hown, rfl⟩
        rw [if_pos hn, if_pos hn] at hchange
        show ((threadStep c s.mem i step).1.lanes (c.lane i)).parkedReg - _ + _ = _ - _ + weigh _
          (threadStep c s.mem i step).2.point
        omega
      | false =>
        have ⟨hz, hz'⟩ := hstate.2 hown
        have hn : ¬ Names c (c.lane i) i := fun h => by
          rw [h.1] at hown
          cases hown
        rw [if_neg hn, if_neg hn] at hchange
        show ((threadStep c s.mem i step).1.lanes (c.lane i)).parkedReg - _ + _ = _ - _ + weigh _
          (threadStep c s.mem i step).2.point
        omega
    · show ((threadStep c s.mem i step).1.lanes (c.lane i)).threads ≤ _
      rw [hlanes, Function.update_self]
      exact hthreads
  · have hlane : (threadStep c s.mem i step).1.lanes lane = s.mem.lanes lane := by
      rw [hlanes, Function.update_of_ne hne]
    have hn : ¬ Names c lane i := fun h => hne h.2.symm
    rw [if_neg hn, if_neg hn] at hchange
    have hat : ∀ step', (Pc.thread i step').spins c lane = 0 ∧ (Pc.thread i step').counted c lane = 0 ∧
        (Pc.thread i step').owed c lane = 0 :=
      fun step' => ⟨if_neg hne.symm, if_neg hne.symm, if_neg hne.symm⟩
    have hpoint : weigh (Pc.spins c lane) (threadStep c s.mem i step).2.point = 0 ∧
        weigh (Pc.counted c lane) (threadStep c s.mem i step).2.point = 0 ∧
        weigh (Pc.owed c lane) (threadStep c s.mem i step).2.point = 0 := by
      cases hnext : (threadStep c s.mem i step).2.point with
      | none => exact ⟨rfl, rfl, rfl⟩
      | some pc =>
        rcases keeps_thread hok (fun howner => ((hp.record i).none howner).2) pc hnext with
          ⟨step', rfl, -⟩ | ⟨lane', job, w, rfl, -, hw⟩
        · exact hat step'
        · refine ⟨rfl, rfl, ?_⟩
          show (if lane' = lane then w.owed else 0) = 0
          have hzero : w.owed = 0 := by
            cases w with
            | uncount t => exact absurd rfl (hw t)
            | _ => rfl
          rw [hzero, ite_self]
    have ⟨hz, hz', hz''⟩ := hat step
    have ⟨hw, hw', hw''⟩ := hpoint
    refine ⟨?_, ?_, ?_, ?_⟩
    · show ((threadStep c s.mem i step).1.lanes lane).spinners + _ =
        _ + weigh _ (threadStep c s.mem i step).2.point
      rw [hlane, hz, hw]
    · show ((threadStep c s.mem i step).1.lanes lane).parked + _ =
        _ + weigh _ (threadStep c s.mem i step).2.point
      rw [hlane, hz', hw']
    · show ((threadStep c s.mem i step).1.lanes lane).parkedReg -
        (parkedRecs c (threadStep c s.mem i step).1 lane : Int) + _ =
          _ + weigh _ (threadStep c s.mem i step).2.point
      rw [hlane, hz'', hw'']
      omega
    · show ((threadStep c s.mem i step).1.lanes lane).threads ≤ _
      rw [hlane]

/-- A step outside of the threads, from what it makes of the lane's words and of the state words. -/
theorem Balances.aside {lane : Nat} {m : Mem} {pc : Pc} {r : Mem × Next Pc Res}
    (hat : Weighs c lane (some pc) 0 0 0) (hnext : Weighs c lane r.2.point 0 0 0)
    (hs : (r.1.lanes lane).spinners = (m.lanes lane).spinners)
    (hp : (r.1.lanes lane).parked = (m.lanes lane).parked)
    (hr : (r.1.lanes lane).parkedReg = (m.lanes lane).parkedReg)
    (ht : (r.1.lanes lane).threads = (m.lanes lane).threads)
    (hst : ∀ j, (r.1.recs j).state = (m.recs j).state) : Balances c lane m pc r := by
  have hspins : pc.spins c lane = 0 := hat.spins
  have hcounted : pc.counted c lane = 0 := hat.counted
  have howed : pc.owed c lane = 0 := hat.owed
  refine ⟨?_, ?_, ?_, ht.le⟩
  · rw [hspins, hnext.spins, hs]
  · rw [hcounted, hnext.counted, hp]
  · rw [howed, hnext.owed, hr, parkedRecs_congr hst]

/-- The same, when it changes one lane, and not its wake words. -/
theorem Balances.setLane {lane lane' : Nat} {m : Mem} {pc : Pc} {f : Lane → Lane} {nx : Next Pc Res}
    (hat : Weighs c lane (some pc) 0 0 0) (hnext : Weighs c lane nx.point 0 0 0)
    (hf : ∀ l, (f l).spinners = l.spinners ∧ (f l).parked = l.parked ∧ (f l).parkedReg = l.parkedReg ∧
      (f l).threads = l.threads) : Balances c lane m pc (m.setLane lane' f, nx) := by
  have ⟨hs, hp, hr, ht⟩ := hf (m.lanes lane')
  rcases eq_or_ne lane lane' with rfl | hne
  · refine .aside hat hnext ?_ ?_ ?_ ?_ fun _ => rfl
    all_goals rw [setLane_self]
    · exact hs
    · exact hp
    · exact hr
    · exact ht
  · refine .aside hat hnext ?_ ?_ ?_ ?_ fun _ => rfl
    all_goals rw [setLane_of_ne _ _ hne]

/-- A wake's step. -/
theorem wake_balances {m : Mem} {lane' : Nat} {after : After} {w : Wake} (hw : WakeOk c lane' w)
    (lane : Nat) : Balances c lane m (.wake lane' after w) (wakeStep c m lane' after w) := by
  cases w with
  | lane t best =>
    refine .aside (weighs_wake rfl) ?_ rfl rfl rfl rfl fun _ => rfl
    simp only [wakeStep]
    split
    · exact weighs_wake rfl
    · exact weighs_scan
  | state t best =>
    refine .aside (weighs_wake rfl) ?_ rfl rfl rfl rfl fun _ => rfl
    simp only [wakeStep]
    split
    · exact weighs_wake rfl
    · exact weighs_scan
  | seq t best => exact .aside (weighs_wake rfl) weighs_scan rfl rfl rfl rfl fun _ => rfl
  | claim t =>
    simp only [wakeStep]
    split
    · -- the word has left PARKED, and the count is owed
      rename_i hparked
      have hchange := @parkedRecs_change c m (m.setRec t fun r => { r with state := .woken }) t
        (fun j hj => setRec_of_ne m _ hj) lane
      rw [setRec_self] at hchange
      refine ⟨rfl, rfl, ?_, Int.le_refl _⟩
      unfold isParked at hchange
      rw [hparked] at hchange
      rcases eq_or_ne lane' lane with rfl | hne
      · have hn : Names c lane' t := hw
        rw [if_pos hn, if_pos hn] at hchange
        change _ - (0 : Int) = _ - 1 at hchange
        show (m.lanes lane').parkedReg -
            (parkedRecs c (m.setRec t fun r => { r with state := .woken }) lane' : Int) +
            (if lane' = lane' then (0 : Int) else 0) =
          _ + if lane' = lane' then (1 : Int) else 0
        rw [if_pos rfl, if_pos rfl]
        omega
      · have hn : ¬ Names c lane t := fun h => hne (hw.2.symm.trans h.2)
        rw [if_neg hn, if_neg hn] at hchange
        show (m.lanes lane).parkedReg -
            (parkedRecs c (m.setRec t fun r => { r with state := .woken }) lane : Int) +
            (if lane' = lane then (0 : Int) else 0) =
          _ + if lane' = lane then (1 : Int) else 0
        rw [if_neg hne, if_neg hne]
        omega
    · exact .aside (weighs_wake rfl) weighs_noneRegistered rfl rfl rfl rfl fun _ => rfl
  | uncount t =>
    simp only [wakeStep]
    have hsame : parkedRecs c (m.setLane lane' fun l => { l with parkedReg := l.parkedReg - 1 }) lane =
        parkedRecs c m lane := parkedRecs_congr (fun _ => rfl) lane
    rcases eq_or_ne lane' lane with rfl | hne
    · refine ⟨by rw [setLane_self]; rfl, by rw [setLane_self]; rfl, ?_, by rw [setLane_self]⟩
      rw [setLane_self, hsame]
      show _ + (if lane' = lane' then (1 : Int) else 0) = _ + if lane' = lane' then (0 : Int) else 0
      rw [if_pos rfl, if_pos rfl]
      show _ - 1 - _ + (1 : Int) = _ - _ + 0
      omega
    · refine ⟨by rw [setLane_of_ne _ _ hne.symm]; rfl, by rw [setLane_of_ne _ _ hne.symm]; rfl, ?_,
        by rw [setLane_of_ne _ _ hne.symm]⟩
      rw [setLane_of_ne _ _ hne.symm, hsame]
      show _ + (if lane' = lane then (1 : Int) else 0) = _ + if lane' = lane then (0 : Int) else 0
      rw [if_neg hne, if_neg hne]
  | poke t =>
    refine .aside (weighs_wake rfl) weighs_afterWake rfl rfl rfl rfl fun j => ?_
    simp only [wakeStep]
    rcases eq_or_ne j t with rfl | hne
    · rw [setRec_self]
    · rw [setRec_of_ne _ _ hne]
  | parked => exact .aside (weighs_wake rfl) (weighs_wake rfl) rfl rfl rfl rfl fun _ => rfl
  | wakes parked =>
    refine .aside (weighs_wake rfl) ?_ rfl rfl rfl rfl fun _ => rfl
    simp only [wakeStep]
    split
    · exact weighs_wake rfl
    · exact weighs_afterWake
  | count => exact .setLane (weighs_wake rfl) (weighs_wake rfl) fun _ => ⟨rfl, rfl, rfl, rfl⟩
  | pokeSocket =>
    simp only [wakeStep]
    split
    · exact .setLane (weighs_wake rfl) weighs_afterWake fun _ => ⟨rfl, rfl, rfl, rfl⟩
    · exact .aside (weighs_wake rfl) weighs_afterWake rfl rfl rfl rfl fun _ => rfl

theorem putNext_lanes (m : Mem) (lane : Nat) (rest : List Nat) (left : Nat) :
    (putNext m lane rest left).1.lanes = m.lanes := by cases left <;> rfl

theorem stopScan_lanes (m : Mem) (lane : Nat) (rest : List Nat) (t pilled : Nat) :
    (stopScan c m lane rest t pilled).1.lanes = m.lanes := by
  unfold stopScan
  split
  · rfl
  · exact putNext_lanes ..

/-- The stop leaves the wake words of the lanes, and the state words. -/
theorem stop_words (m : Mem) (st : Stop) (lane : Nat) :
    ((stopStep c m st).1.lanes lane).spinners = (m.lanes lane).spinners ∧
      ((stopStep c m st).1.lanes lane).parked = (m.lanes lane).parked ∧
      ((stopStep c m st).1.lanes lane).parkedReg = (m.lanes lane).parkedReg ∧
      ((stopStep c m st).1.lanes lane).threads = (m.lanes lane).threads ∧
      ∀ j, ((stopStep c m st).1.recs j).state = (m.recs j).state := by
  cases st with
  | scan lane' rest t pilled =>
    simp only [stopStep]
    split
    · exact ⟨rfl, rfl, rfl, rfl, fun _ => rfl⟩
    · rw [stopScan_lanes, stopScan_recs]
      exact ⟨rfl, rfl, rfl, rfl, fun _ => rfl⟩
  | pill lane' rest t pilled =>
    simp only [stopStep, stopScan_lanes, stopScan_recs]
    refine ⟨rfl, rfl, rfl, rfl, fun j => ?_⟩
    rcases eq_or_ne j t with rfl | hne
    · rw [setRec_self]
    · rw [setRec_of_ne _ _ hne]
  | put lane' rest left =>
    simp only [stopStep]
    split
    · rw [putNext_lanes, putNext_recs]
      rcases eq_or_ne lane lane' with rfl | hne
      · rw [setLane_self]
        exact ⟨rfl, rfl, rfl, rfl, fun _ => rfl⟩
      · rw [setLane_of_ne _ _ hne]
        exact ⟨rfl, rfl, rfl, rfl, fun _ => rfl⟩
    · exact ⟨rfl, rfl, rfl, rfl, fun _ => rfl⟩

/-- A step of the loop's side, or of the stop. -/
theorem aside_balances {m : Mem} {pc : Pc} (hthread : ∀ i step, pc ≠ .thread i step)
    (hwake : ∀ lane after w, pc ≠ .wake lane after w) (lane : Nat) :
    Balances c lane m pc (advance c m pc) := by
  have hat : Weighs c lane (some pc) 0 0 0 := by
    cases pc with
    | thread i step => exact absurd rfl (hthread i step)
    | wake lane after w => exact absurd rfl (hwake lane after w)
    | _ => exact ⟨rfl, rfl, rfl⟩
  have hgoto : ∀ pc' : Pc, (∀ i step, pc' ≠ .thread i step) → (∀ lane after w, pc' ≠ .wake lane after w) →
      Weighs c lane (some pc') 0 0 0 := by
    intro pc' ht hw
    cases pc' with
    | thread i step => exact absurd rfl (ht i step)
    | wake lane after w => exact absurd rfl (hw lane after w)
    | _ => exact ⟨rfl, rfl, rfl⟩
  have hstops : ∀ (m' : Mem) (nx : Next Pc Res), (∀ p, nx.point = some p → p.stops = true) →
      Weighs c lane nx.point 0 0 0 := by
    intro m' nx h
    cases hnx : nx.point with
    | none => exact weighs_none
    | some p =>
      have hp := h p hnx
      cases p with
      | stopping | stop => exact ⟨rfl, rfl, rfl⟩
      | _ => cases hp
  cases pc with
  | thread i step => exact absurd rfl (hthread i step)
  | wake lane after w => exact absurd rfl (hwake lane after w)
  | push lane' p =>
    refine .setLane (f := fun l => { l with ring := _ }) hat ?_ fun _ => ⟨rfl, rfl, rfl, rfl⟩
    unfold pushBehind
    split
    · exact hgoto _ (Pc.ne_thread rfl) (Pc.ne_wake rfl)
    · split
      · exact weighs_wakeOne
      · exact hgoto _ (Pc.ne_thread rfl) (Pc.ne_wake rfl)
    · exact weighs_none
  | spinners lane' =>
    refine .aside hat ?_ rfl rfl rfl rfl fun _ => rfl
    simp only [advance]
    split
    · exact weighs_none
    · exact hgoto _ (Pc.ne_thread rfl) (Pc.ne_wake rfl)
  | parked | parkedReg => exact .aside hat (hgoto _ (Pc.ne_thread rfl) (Pc.ne_wake rfl)) rfl rfl rfl rfl fun _ => rfl
  | threads lane' parked =>
    refine .aside hat ?_ rfl rfl rfl rfl fun _ => rfl
    simp only [advance]
    split
    · exact weighs_wakeOne
    · exact weighs_none
  | aged stalled =>
    refine .aside hat ?_ rfl rfl rfl rfl fun _ => rfl
    simp only [advance]
    split
    · exact weighs_agedNext
    · exact weighs_none
  | pops lane' stalled p =>
    refine .setLane (f := fun l => { l with ring := _ }) hat ?_ fun _ => ⟨rfl, rfl, rfl, rfl⟩
    unfold popsBehind
    split
    · exact hgoto _ (Pc.ne_thread rfl) (Pc.ne_wake rfl)
    · exact hgoto _ (Pc.ne_thread rfl) (Pc.ne_wake rfl)
    · exact weighs_agedNext
  | peek lane' stalled pops p =>
    refine .setLane (f := fun l => { l with ring := _ }) hat ?_ fun _ => ⟨rfl, rfl, rfl, rfl⟩
    unfold peekBehind
    split
    · exact hgoto _ (Pc.ne_thread rfl) (Pc.ne_wake rfl)
    · split
      · exact weighs_wakeOne
      · exact weighs_agedNext
    · exact weighs_agedNext
  | send lane' slot =>
    simp only [advance]
    split
    · exact .setLane hat weighs_wakeOne fun _ => ⟨rfl, rfl, rfl, rfl⟩
    · exact .aside hat weighs_none rfl rfl rfl rfl fun _ => rfl
  | tick ns => exact .aside hat weighs_none rfl rfl rfl rfl fun _ => rfl
  | stopping rest =>
    refine .aside hat (hstops m _ fun p hp => stops_advance (c := c) (m := m) rfl hp) ?_ ?_ ?_ ?_ fun _ => rfl
    all_goals rfl
  | stop st =>
    have hnext : Weighs c lane (advance c m (.stop st)).2.point 0 0 0 :=
      hstops m _ fun p hp => stops_advance (c := c) (m := m) rfl hp
    obtain ⟨hs, hp, hr, ht, hst⟩ := stop_words (c := c) m st lane
    exact .aside hat hnext hs hp hr ht hst

/-! ## At every instant -/

/-- **The wake words of a lane**: its spinners and its parked threads, and those parked with a
channel but for who has changed one of the state word and the count. -/
structure Counted (c : Setup) (s : State) (lane : Nat) : Prop where
  spinners : Totals s (Pc.spins c lane) (s.mem.lanes lane).spinners
  parked : Totals s (Pc.counted c lane) (s.mem.lanes lane).parked
  parkedReg : Totals s (Pc.owed c lane)
    ((s.mem.lanes lane).parkedReg - parkedRecs c s.mem lane)
  threads : (s.mem.lanes lane).threads ≤ c.dealtOn lane

theorem spins_nonneg (step : Step) : 0 ≤ step.spins := by
  have hlook : ∀ look : Look, 0 ≤ look.spins := by
    intro look
    match look with
    | .once => exact Int.le_refl 0
    | .next _ true => exact Int.one_nonneg
    | .next _ false => exact Int.le_refl 0
  cases step with
  | spinUp now spinning | spinBack spinning =>
    cases spinning
    all_goals simp [Step.spins]
  | spinDown => exact Int.one_nonneg
  | enter look | pill look | clock look | pollLoad look | pollStore look | pollOwn look
  | pollSocket look | pollPoke look | pop look => exact hlook look
  | _ => exact Int.le_refl 0

theorem Pc.spins_nonneg (lane : Nat) (pc : Pc) : 0 ≤ pc.spins c lane := by
  cases pc with
  | thread i step =>
    show 0 ≤ if c.lane i = lane then step.spins else 0
    split
    · exact Pool.spins_nonneg step
    · exact Int.le_refl 0
  | _ => exact Int.le_refl 0

theorem Pc.counted_nonneg (lane : Nat) (pc : Pc) : 0 ≤ pc.counted c lane := by
  cases pc with
  | thread i step =>
    show 0 ≤ if c.lane i = lane then step.counted else 0
    split
    · cases step <;> first | exact Int.one_nonneg | exact Int.le_refl 0
    · exact Int.le_refl 0
  | _ => exact Int.le_refl 0

/-! ### How a call begins -/

/-- A point of a thread's step begins no call with the idle spin. -/
def NoneBegins (nx : Next Pc Res) : Prop :=
  ∀ i step, nx.point = some (.thread i step) → step.Begins

theorem noneBegins_goto {i : Nat} {step : Step} (h : step.Begins) :
    NoneBegins (.goto (.thread i step)) := by
  intro i' step' hpoint
  cases hpoint
  exact h

theorem noneBegins_ret {res : Res} : NoneBegins (.ret res) := by
  intro i step hpoint
  cases hpoint

theorem noneBegins_hand {i : Nat} {job : Job} {fromRing : Bool} :
    NoneBegins (hand c i job fromRing) := by
  unfold hand
  split
  · exact noneBegins_goto trivial
  · exact noneBegins_ret

theorem noneBegins_found {m : Mem} {i : Nat} {look : Look} {job : Job} {fromRing : Bool} :
    NoneBegins (found c m i look job fromRing).2 := by
  unfold found
  split
  · exact noneBegins_goto trivial
  · exact noneBegins_hand

theorem begins_of_park {i : Nat} : (park c i).Begins := by
  unfold park
  split <;> trivial

theorem noneBegins_nothing {i : Nat} {look : Look} {now : Int} :
    NoneBegins (nothing c i look now) := by
  unfold nothing
  split
  · exact noneBegins_ret
  · split
    · split <;> exact noneBegins_goto trivial
    · split
      · split
        · exact noneBegins_goto trivial
        · exact noneBegins_goto begins_of_park
      · exact noneBegins_goto trivial

theorem noneBegins_unparked {m : Mem} {i : Nat} {got : Own} :
    NoneBegins (unparked m i got).2 := by
  cases got with
  | pill => exact noneBegins_ret
  | poke => exact noneBegins_goto trivial

theorem thread_begins {m : Mem} {i : Nat} {step : Step} (h : step.Begins) :
    NoneBegins (threadStep c m i step).2 := by
  cases step with
  | enter look =>
    simp only [threadStep]
    split
    · exact noneBegins_goto h
    · exact noneBegins_ret
  | pill look =>
    simp only [threadStep]
    split
    · exact noneBegins_ret
    · exact noneBegins_goto trivial
  | pollLoad | pollStore | spinUp =>
    simp only [threadStep]
    split <;> exact noneBegins_goto trivial
  | pollOwn look now =>
    simp only [threadStep]
    split
    · exact noneBegins_goto trivial
    · exact noneBegins_goto trivial
    · exact noneBegins_found
  | pollSocket look now =>
    simp only [threadStep]
    split
    · exact noneBegins_goto trivial
    · exact noneBegins_goto trivial
    · exact noneBegins_found
    · exact noneBegins_found
  | pop look now pc =>
    show NoneBegins (popBehind c i look now _)
    unfold popBehind
    split
    · exact noneBegins_goto trivial
    · split
      · exact noneBegins_goto trivial
      · exact noneBegins_hand
    · exact noneBegins_nothing
  | spinBack spinning =>
    cases spinning with
    | true => exact noneBegins_goto trivial
    | false => exact noneBegins_goto begins_of_park
  | spinDown found =>
    cases found with
    | none => exact noneBegins_goto begins_of_park
    | some job => exact noneBegins_hand
  | chain job pc =>
    show NoneBegins (chainBehind c i job _)
    unfold chainBehind
    split
    · exact noneBegins_goto trivial
    · exact noneBegins_ret
    · intro i' step hpoint
      exact absurd rfl ((aside_wakeOne _ hpoint).2 i' step)
  | recheck pc =>
    show NoneBegins (recheckBehind i _)
    unfold recheckBehind
    split <;> exact noneBegins_goto trivial
  | sockPop pc =>
    show NoneBegins (sockBehind i _)
    unfold sockBehind
    split <;> exact noneBegins_goto trivial
  | recheckSocket | block | unpark | leave | leaveRecv | sockRecv =>
    simp only [threadStep]
    split <;> exact noneBegins_goto trivial
  | unparkCount | unparkStore => exact noneBegins_unparked
  | leaveCount | leaveStore | retire => exact noneBegins_ret
  | sockUncount found fromRing =>
    cases found with
    | none => exact noneBegins_goto trivial
    | some job => exact noneBegins_hand
  | unregister =>
    simp only [threadStep]
    split
    · exact noneBegins_ret
    · exact noneBegins_goto trivial
  | _ => exact noneBegins_goto trivial

/-- Every lane is counted, and no call begins with the idle spin. -/
structure AllCounted (c : Setup) (s : State) : Prop where
  lane : ∀ lane, Counted c s lane
  begins : ∀ t i step, s.pc t = some (.thread i step) → step.Begins

/-- Any step balances the words of any lane. -/
theorem AllCounted.balances {s : State} {t : Who} {pc : Pc} (h : AllCounted c s) (hp : Placed c s)
    (hst : Stated c s) (hpc : s.pc t = some pc) (lane : Nat) :
    Balances c lane s.mem pc (advance c s.mem pc) := by
  by_cases hthread : ∃ i step, pc = .thread i step
  · obtain ⟨i, step, rfl⟩ := hthread
    refine thread_balances hp hst hpc (h.begins t i step hpc) ?_ lane
    have hle := (h.lane (c.lane i)).spinners.weigh_le (Pc.spins_nonneg (c.lane i)) t
    rw [hpc] at hle
    rwa [show weigh (Pc.spins c (c.lane i)) (some (.thread i step)) = step.spins from if_pos rfl] at hle
  · by_cases hwake : ∃ lane after w, pc = .wake lane after w
    · obtain ⟨lane', after, w, rfl⟩ := hwake
      exact wake_balances (hst.wakes t lane' after w hpc) lane
    · exact aside_balances (fun i step heq => hthread ⟨i, step, heq⟩)
        (fun lane after w heq => hwake ⟨lane, after, w, heq⟩) lane

/-- **A step keeps the lanes counted.** -/
theorem AllCounted.step {s : State} {t : Who} {pc : Pc} {m' : Mem} {nx : Next Pc Res}
    (h : AllCounted c s) (hp : Placed c s) (hst : Stated c s) (hpc : s.pc t = some pc)
    (hadv : advance c s.mem pc = (m', nx)) : AllCounted c (s.move t m' nx.point) := by
  obtain rfl : (advance c s.mem pc).1 = m' := congrArg Prod.fst hadv
  obtain rfl : (advance c s.mem pc).2 = nx := congrArg Prod.snd hadv
  refine ⟨fun lane => ?_, fun u i step hat => ?_⟩
  · have ⟨hs, hpk, hr, ht⟩ := h.balances hp hst hpc lane
    have ⟨hspins, hparked, hreg, hthreads⟩ := h.lane lane
    refine ⟨hspins.step ?_, hparked.step ?_, hreg.step ?_, ht.trans hthreads⟩
    · rw [hpc]
      exact hs
    · rw [hpc]
      exact hpk
    · rw [hpc]
      exact hr
  · rcases eq_or_ne u t with rfl | hne
    · rw [s.move_pc_self] at hat
      by_cases hthread : ∃ j step', pc = .thread j step'
      · obtain ⟨j, step', rfl⟩ := hthread
        exact thread_begins (h.begins u j step' hpc) i step hat
      · -- a step of another kind is followed by no point of a thread's
        have hnot : ∀ j step', pc ≠ .thread j step' := fun j step' heq => hthread ⟨j, step', heq⟩
        cases hstops : pc.stops with
        | true => exact absurd rfl (stops_ne_thread (stops_advance hstops hat) i step)
        | false => exact absurd rfl ((aside_advance s.mem pc hstops hnot _ hat).2 i step)
    · rw [s.move_pc_of_ne _ _ hne] at hat
      exact h.begins u i step hat

theorem AllCounted.call {s : State} {t : Who} {op : Op} (h : AllCounted c s) (hpc : s.pc t = none) :
    AllCounted c (s.move t s.mem (some (Pc.start c op))) := by
  have hstart : ∀ lane, Weighs c lane (some (Pc.start c op)) 0 0 0 := by
    intro lane
    cases op with
    | nextJob i | tryNextJob i | leavePool i =>
      exact ⟨ite_self 0, ite_self 0, ite_self 0⟩
    | _ => exact ⟨rfl, rfl, rfl⟩
  refine ⟨fun lane => ?_, fun u i step hat => ?_⟩
  · have ⟨hspins, hparked, hreg, hthreads⟩ := h.lane lane
    have ⟨hs, hpk, hr⟩ := hstart lane
    refine ⟨hspins.step ?_, hparked.step ?_, hreg.step ?_, hthreads⟩
    · rw [hpc, hs]
      rfl
    · rw [hpc, hpk]
      rfl
    · rw [hpc, hr]
      rfl
  · rcases eq_or_ne u t with rfl | hne
    · rw [s.move_pc_self] at hat
      cases op with
      | nextJob j | tryNextJob j =>
        cases hat
        rfl
      | leavePool j =>
        cases hat
        trivial
      | _ => cases hat
    · rw [s.move_pc_of_ne _ _ hne] at hat
      exact h.begins u i step hat

theorem allCounted_init : AllCounted c ⟨Mem.init c, fun _ => none⟩ := by
  refine ⟨fun lane => ?_, fun _ _ _ hat => absurd hat.symm (Option.some_ne_none _)⟩
  have hparked : parkedRecs c (Mem.init c) lane = 0 := by
    refine Finset.card_eq_zero.mpr (Finset.filter_eq_empty_iff.mpr fun i _ h => ?_)
    have hstate := h.2.2
    rw [init_rec] at hstate
    split at hstate <;> cases hstate
  refine ⟨?_, ?_, ?_, ?_⟩
  all_goals simp only [init_lane, hparked]
  · exact Threads.totals_init ..
  · exact Threads.totals_init ..
  · exact Threads.totals_init ..
  · exact Int.le_refl _

/-- **The wake words, at every instant.** -/
theorem counted_of_execution (e : Execution c) : ∀ k ≤ e.labels.length, AllCounted c (e.state k) := by
  have hplaced := placed_of_execution e
  have hstated := stated_of_execution e
  refine Program.invariant_of_run e allCounted_init (fun s t op h hpc _ => h.call hpc) ?_
  intro k t act pc m' nx hl h hpc hadv
  have hk : k < e.labels.length := LabelledSystem.Execution.lt_length hl
  exact h.step (hplaced k hk.le) (hstated k hk.le) hpc hadv

end Pool

end Offload

end MojoHttp
