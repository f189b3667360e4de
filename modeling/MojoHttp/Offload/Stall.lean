import MojoHttp.Lib.Execution
import Mathlib.Logic.Function.Basic
import Mathlib.Data.List.Range

/-!
# The stall look and its time (`offload.mojo`)

`wake_aged` judges the head of every lane's ring against the lane's threshold, and `next_look` says
when it must next be asked to. The loop calls both; the pool's threads pop the rings between any
two of the loop's reads of them.

* **`next`** — the loop's calls, a read of a ring a step, and the pops.
* **`Judged`** — a look made at or after the deadline compared the head with its threshold.
* **`LaneOk`** — what a look leaves behind in a lane.
* **`nextLook_onTime_iff`** — `next_look` is on time exactly when no lane that counts from the push
  shows a head the last look did not peek there and whose deadline is not later than that look. A
  lane that counts progress is on time at any threshold above 0.
* **`answered_zero_late`** — a run in which one does.
-/

namespace MojoHttp.Offload.Stall

/-! ## The memory -/

def POOL_FREE_WAKE_AGE_NS : Int := 10000

/-- What the constructor and the wiring fix: the lanes, the interpreter's kind and the threshold. -/
structure Pool where
  lanes : Nat
  parallel : Bool
  /-- `_parallel_forced >= 0`: the knob is set, and `parallel` is what it said. -/
  parallelForced : Bool
  laneGilFree : Nat → Bool
  wakeAge : Int

/-- A lane's ring and what the looks remember of it. -/
structure Lane where
  /-- The slots pushed and not popped, the oldest first. -/
  jobs : List Nat
  /-- `Ring.pops`. -/
  pops : Nat
  lanePops : Nat
  laneProgress : Nat
  deriving Repr, DecidableEq

structure Mem where
  lanes : Nat → Lane
  submitNs : Nat → Nat
  lastLook : Nat

def Mem.setLane (m : Mem) (lane : Nat) (l : Lane) : Mem :=
  { m with lanes := Function.update m.lanes lane l }

variable (c : Pool)

/-- `is_lane_gil_free`. -/
def Pool.isLaneGilFree (lane : Nat) : Bool := !c.parallelForced && c.laneGilFree lane

/-- `_counts_from_push`. -/
def Pool.countsFromPush (lane : Nat) : Bool := c.parallel || c.isLaneGilFree lane

/-- `_stall_threshold`. -/
def Pool.stallThreshold (lane : Nat) : Int :=
  if c.isLaneGilFree lane && POOL_FREE_WAKE_AGE_NS < c.wakeAge then POOL_FREE_WAKE_AGE_NS
  else c.wakeAge

/-- `_waited_since`. -/
def waitedSince (m : Mem) (lane slot : Nat) (fromPush : Bool) : Nat :=
  let since := if fromPush then 0 else (m.lanes lane).laneProgress
  if m.submitNs slot > since then m.submitNs slot else since

/-! ## The calls -/

/-- A head `next_look` peeked: the lane, the position it was at, and the deadline it counted. -/
structure Seen where
  lane : Nat
  pos : Nat
  due : Int
  deriving Repr, DecidableEq

/-- Where the loop is in a call. `todo` are the lanes to come; `seen` is what the call has peeked,
which nothing of it reads. -/
inductive Pc where
  /-- `wake_aged` before it reads a lane's pop count. -/
  | look (now : Nat) (todo : List Nat) (woken : Nat)
  /-- `wake_aged` before it peeks the lane. -/
  | lookPeek (now lane pops : Nat) (todo : List Nat) (woken : Nat)
  /-- `next_look` before it peeks a lane, or about to return `best`. -/
  | ask (now : Nat) (best : Int) (todo : List Nat) (seen : List Seen)
  /-- `next_look` before it reads the pop count of a lane that counts progress. -/
  | askPops (now : Nat) (best : Int) (lane pos slot : Nat) (todo : List Nat) (seen : List Seen)
  deriving Repr, DecidableEq

/-- The memory, the loop's point, its clock, and what the looks have done: a comparison is a lane, a
position and the look's time. -/
structure State where
  mem : Mem
  pc : Option Pc
  clock : Nat
  /-- When the last look to pass the lane was made, and the position whose job it peeked. -/
  lookedAt : Nat → Nat
  peeked : Nat → Option Nat
  compared : List (Nat × Nat × Nat)

def State.init : State where
  mem := ⟨fun _ => ⟨[], 0, 0, 0⟩, fun _ => 0, 0⟩
  pc := none
  clock := 0
  lookedAt := fun _ => 0
  peeked := fun _ => none
  compared := []

def State.setLane (s : State) (lane : Nat) (l : Lane) : State :=
  { s with mem := s.mem.setLane lane l }

/-- What is done next. A call names the clock it read; `go wakes` is the loop's next read of a ring,
and whether `_wake_one` found a thread to wake if it comes to that. -/
inductive Act where
  | park (slot now : Nat)
  | push (lane slot : Nat)
  | pop (lane : Nat)
  | look (now : Nat)
  | ask (now : Nat)
  | go (wakes : Bool)
  | looked (woken : Nat)
  | answer (best : Int)
  deriving Repr, DecidableEq

/-- A look's turn at a lane, its pop count read: what it leaves there, and whether it compared the
head with its threshold and found it stalled. -/
def judge (m : Mem) (now lane pops : Nat) : Mem × Bool × Bool :=
  let l := m.lanes lane
  match l.jobs with
  | [] => (m.setLane lane { l with lanePops := pops, laneProgress := now }, false, false)
  | slot :: _ =>
    let fromPush := c.countsFromPush lane
    let m' := if pops ≠ l.lanePops
      then m.setLane lane { l with lanePops := pops, laneProgress := now } else m
    if pops ≠ l.lanePops ∧ fromPush = false then (m', false, false)
    else
      (m', true, decide (c.stallThreshold lane ≤ (now : Int) - waitedSince m' lane slot fromPush))

/-- `next_look` with one more deadline. -/
def offer (lastLook : Nat) (best due : Int) : Int :=
  if due ≤ lastLook then best else if best = 0 ∨ due < best then due else best

/-- One read of the loop's. -/
def go (s : State) (wakes : Bool) : Pc → Option State
  | .look _ [] _ => none
  | .look now (lane :: todo) woken =>
    some { s with pc := some (.lookPeek now lane (s.mem.lanes lane).pops todo woken) }
  | .lookPeek now lane pops todo woken =>
    let l := s.mem.lanes lane
    let (mem, comparedNow, stalled) := judge c s.mem now lane pops
    some { s with
      mem
      pc := some (.look now todo (if stalled && wakes then woken + 1 else woken))
      lookedAt := Function.update s.lookedAt lane now
      peeked := Function.update s.peeked lane (if l.jobs = [] then none else some l.pops)
      compared := if comparedNow then (lane, l.pops, now) :: s.compared else s.compared }
  | .ask _ _ [] _ => none
  | .ask now best (lane :: todo) seen =>
    let l := s.mem.lanes lane
    match l.jobs with
    | [] => some { s with pc := some (.ask now best todo seen) }
    | slot :: _ =>
      if c.countsFromPush lane then
        let due := (waitedSince s.mem lane slot true : Int) + c.stallThreshold lane
        some { s with
          pc := some (.ask now (offer s.mem.lastLook best due) todo (⟨lane, l.pops, due⟩ :: seen)) }
      else some { s with pc := some (.askPops now best lane l.pops slot todo seen) }
  | .askPops now best lane pos slot todo seen =>
    let l := s.mem.lanes lane
    let since := if l.pops ≠ l.lanePops then now else waitedSince s.mem lane slot false
    let due := (since : Int) + c.stallThreshold lane
    some { s with
      pc := some (.ask now (offer s.mem.lastLook best due) todo (⟨lane, pos, due⟩ :: seen)) }

/-- One step. The loop parks and pushes between its calls, and its clock does not go back; a thread
pops whenever there is a job. -/
def next (s : State) : Act → Option State
  | .park slot now =>
    if s.pc = none ∧ s.clock ≤ now then
      some { s with clock := now,
                    mem := { s.mem with submitNs := Function.update s.mem.submitNs slot now } }
    else none
  | .push lane slot =>
    if s.pc = none then
      let l := s.mem.lanes lane
      some (s.setLane lane { l with jobs := l.jobs ++ [slot] })
    else none
  | .pop lane =>
    let l := s.mem.lanes lane
    match l.jobs with
    | [] => none
    | _ :: jobs => some (s.setLane lane { l with jobs, pops := l.pops + 1 })
  | .look now =>
    if s.pc = none ∧ s.clock ≤ now then
      some { s with clock := now, mem := { s.mem with lastLook := now },
                    pc := some (.look now (List.range c.lanes) 0) }
    else none
  | .ask now =>
    if s.pc = none ∧ s.clock ≤ now then
      some { s with clock := now, pc := some (.ask now 0 (List.range c.lanes) []) }
    else none
  | .go wakes => s.pc.bind (go c s wakes)
  | .looked woken =>
    match s.pc with
    | some (.look _ [] woken') => if woken' = woken then some { s with pc := none } else none
    | _ => none
  | .answer best =>
    match s.pc with
    | some (.ask _ best' [] _) => if best' = best then some { s with pc := none } else none
    | _ => none

def system : LabelledSystem State Act := ⟨State.init, next c⟩

abbrev Execution := (system c).Execution

/-! ## On time -/

/-- A look made at or after the head's deadline compared it with its threshold. -/
def Judged (s : State) (e : Seen) : Prop :=
  ∃ t, (e.lane, e.pos, t) ∈ s.compared ∧ e.due ≤ t

instance (s : State) (e : Seen) : Decidable (Judged s e) :=
  decidable_of_iff (∃ x ∈ s.compared, x.1 = e.lane ∧ x.2.1 = e.pos ∧ e.due ≤ x.2.2) (by
    constructor
    · rintro ⟨⟨lane, pos, t⟩, hx, rfl, rfl, hle⟩
      exact ⟨t, hx, hle⟩
    · rintro ⟨t, hx, hle⟩
      exact ⟨_, hx, rfl, rfl, hle⟩)

/-- An answer is on time for what its call saw: no later than the deadline of any head not judged,
and, when it is one, the deadline of such a head. -/
structure OnTime (s : State) (best : Int) (seen : List Seen) : Prop where
  intime : ∀ e ∈ seen, ¬ Judged s e → best ≠ 0 ∧ best ≤ e.due
  unjudged : best ≠ 0 → ∃ e ∈ seen, e.due = best ∧ ¬ Judged s e

/-! ## What the looks leave behind -/

/-- A lane between two steps. While its ring has not moved since the last look to pass it, that look
saw progress, or compared the head that is still there; and a comparison of the job still at the
front was repeated by every look since. -/
structure LaneOk (s : State) (lane : Nat) : Prop where
  passed : (s.mem.lanes lane).lanePops ≤ (s.mem.lanes lane).pops
  still : c.countsFromPush lane = false → (s.mem.lanes lane).lanePops = (s.mem.lanes lane).pops →
    (s.mem.lanes lane).laneProgress = s.lookedAt lane ∨
      (lane, (s.mem.lanes lane).pops, s.lookedAt lane) ∈ s.compared
  peeked : c.countsFromPush lane = true → ∀ pos, s.peeked lane = some pos →
    (lane, pos, s.lookedAt lane) ∈ s.compared
  compared : ∀ pos t, (lane, pos, t) ∈ s.compared → t ≤ s.lookedAt lane ∧
    pos ≤ (s.mem.lanes lane).pops ∧
    pos < (s.mem.lanes lane).pops + (s.mem.lanes lane).jobs.length ∧
    (pos = (s.mem.lanes lane).pops → s.peeked lane = some pos)

/-- A head the call has seen: on a lane that counts progress a deadline not later than the last
look was judged by it; on one that counts from the push, the job is judged by the looks that
peeked it. -/
structure SeenOk (s : State) (e : Seen) : Prop where
  counted : c.countsFromPush e.lane = false → 0 < c.stallThreshold e.lane →
    e.due ≤ s.mem.lastLook →
    (e.lane, e.pos, s.mem.lastLook) ∈ s.compared
  pushed : c.countsFromPush e.lane = true → s.peeked e.lane = some e.pos →
    (e.lane, e.pos, s.mem.lastLook) ∈ s.compared
  peeked : c.countsFromPush e.lane = true → ∀ t, (e.lane, e.pos, t) ∈ s.compared →
    s.peeked e.lane = some e.pos

/-- The answer so far: the least of the deadlines later than the last look. -/
structure BestOf (lastLook : Nat) (best : Int) (seen : List Seen) : Prop where
  least : ∀ e ∈ seen, lastLook < e.due → best ≠ 0 ∧ best ≤ e.due
  offered : best ≠ 0 → ∃ e ∈ seen, e.due = best ∧ lastLook < e.due

/-- The last look passed every lane but those to come. -/
def LookedBut (s : State) (todo : List Nat) : Prop :=
  ∀ lane < c.lanes, lane ∉ todo → s.lookedAt lane = s.mem.lastLook

/-- The loop at its point. -/
def PcOk (s : State) : Option Pc → Prop
  | none => LookedBut c s []
  | some (.look now todo _) => now = s.mem.lastLook ∧ LookedBut c s todo
  | some (.lookPeek now lane pops todo _) =>
    now = s.mem.lastLook ∧ pops ≤ (s.mem.lanes lane).pops ∧
      (s.mem.lanes lane).lanePops ≤ pops ∧ LookedBut c s (lane :: todo)
  | some (.ask now best todo seen) =>
    LookedBut c s [] ∧ s.mem.lastLook ≤ now ∧ (∀ lane ∈ todo, lane < c.lanes) ∧
      BestOf s.mem.lastLook best seen ∧ ∀ e ∈ seen, SeenOk c s e
  | some (.askPops now best lane pos _ todo seen) =>
    (LookedBut c s [] ∧ s.mem.lastLook ≤ now ∧ (∀ lane ∈ todo, lane < c.lanes) ∧
      BestOf s.mem.lastLook best seen ∧ ∀ e ∈ seen, SeenOk c s e) ∧
      lane < c.lanes ∧ c.countsFromPush lane = false ∧
      (s.mem.lanes lane).lanePops ≤ pos ∧ pos ≤ (s.mem.lanes lane).pops

structure Ok (s : State) : Prop where
  lanes : ∀ lane, LaneOk c s lane
  looked : ∀ lane, s.lookedAt lane ≤ s.mem.lastLook
  clock : s.mem.lastLook ≤ s.clock
  point : PcOk c s s.pc

variable {c}

/-! ## Each step -/

theorem BestOf.offer {lastLook : Nat} {best : Int} {seen : List Seen} (h : BestOf lastLook best seen)
    (e : Seen) : BestOf lastLook (offer lastLook best e.due) (e :: seen) := by
  unfold Stall.offer
  by_cases hold : e.due ≤ lastLook
  · rw [if_pos hold]
    constructor
    · intro e' he' hlt
      rcases List.mem_cons.mp he' with rfl | he'
      · omega
      · exact h.least e' he' hlt
    · intro hbest
      obtain ⟨e', he', hdue, hlt⟩ := h.offered hbest
      exact ⟨e', List.mem_cons_of_mem _ he', hdue, hlt⟩
  · rw [if_neg hold]
    by_cases hless : best = 0 ∨ e.due < best
    · rw [if_pos hless]
      constructor
      · intro e' he' hlt
        rcases List.mem_cons.mp he' with rfl | he'
        · exact ⟨by omega, Int.le_refl _⟩
        · have hleast := h.least e' he' hlt
          exact ⟨by omega, by omega⟩
      · intro _
        exact ⟨e, List.mem_cons_self, rfl, by omega⟩
    · rw [if_neg hless]
      constructor
      · intro e' he' hlt
        rcases List.mem_cons.mp he' with rfl | he'
        · exact ⟨by omega, by omega⟩
        · exact h.least e' he' hlt
      · intro hbest
        obtain ⟨e', he', hdue, hlt⟩ := h.offered hbest
        exact ⟨e', List.mem_cons_of_mem _ he', hdue, hlt⟩

theorem bestOf_nil (lastLook : Nat) : BestOf lastLook 0 [] where
  least e he := (nomatch he)
  offered h := absurd rfl h

/-- A lane whose ring, memory and looks are as they were. -/
theorem LaneOk.same {s s' : State} {lane : Nat} (h : LaneOk c s lane)
    (hlane : s'.mem.lanes lane = s.mem.lanes lane) (hlooked : s'.lookedAt lane = s.lookedAt lane)
    (hpeeked : s'.peeked lane = s.peeked lane)
    (hcompared : ∀ pos t, (lane, pos, t) ∈ s'.compared ↔ (lane, pos, t) ∈ s.compared) :
    LaneOk c s' lane where
  passed := by rw [hlane]; exact h.passed
  still hcount heq := by
    rw [hlane] at heq ⊢
    rw [hlooked, hcompared]
    exact h.still hcount heq
  peeked hcount pos hpos := by
    rw [hpeeked] at hpos
    rw [hlooked, hcompared]
    exact h.peeked hcount pos hpos
  compared pos t hmem := by
    rw [hcompared] at hmem
    rw [hlane, hlooked, hpeeked]
    exact h.compared pos t hmem

@[simp] theorem Mem.setLane_self (m : Mem) (lane : Nat) (l : Lane) :
    (m.setLane lane l).lanes lane = l := Function.update_self ..

theorem Mem.setLane_of_ne (m : Mem) {lane lane' : Nat} (l : Lane) (h : lane' ≠ lane) :
    (m.setLane lane l).lanes lane' = m.lanes lane' := Function.update_of_ne h ..

/-- A look's turn moves no job, remembers the count it read, and without progress leaves the lane
compared. -/
structure JudgeSpec (c : Pool) (m : Mem) (now lane count : Nat) (r : Mem × Bool × Bool) : Prop where
  lastLook : r.1.lastLook = m.lastLook
  others : ∀ lane' ≠ lane, r.1.lanes lane' = m.lanes lane'
  sameJobs : (r.1.lanes lane).jobs = (m.lanes lane).jobs
  samePops : (r.1.lanes lane).pops = (m.lanes lane).pops
  remembered : (r.1.lanes lane).lanePops = count
  outcome : (r.1.lanes lane).laneProgress = now ∨ r.2.1 = true
  empty : (m.lanes lane).jobs = [] → r.2.1 = false
  pushed : c.countsFromPush lane = true → (m.lanes lane).jobs ≠ [] → r.2.1 = true

/-- A turn that counts the ring as moved: the count and the time are remembered. -/
theorem judgeSpec_moved {m : Mem} {now lane count : Nat} {compared stalled : Bool}
    (hempty : (m.lanes lane).jobs = [] → compared = false)
    (hpushed : c.countsFromPush lane = true → (m.lanes lane).jobs ≠ [] → compared = true) :
    JudgeSpec c m now lane count
      (m.setLane lane { m.lanes lane with lanePops := count, laneProgress := now }, compared,
        stalled) where
  lastLook := rfl
  others _ hne := m.setLane_of_ne _ hne
  sameJobs := by rw [Mem.setLane_self]
  samePops := by rw [Mem.setLane_self]
  remembered := by rw [Mem.setLane_self]
  outcome := .inl (by rw [Mem.setLane_self])
  empty := hempty
  pushed := hpushed

theorem judge_spec (m : Mem) (now lane pops : Nat) :
    JudgeSpec c m now lane pops (judge c m now lane pops) := by
  unfold judge
  dsimp only
  cases hjobs : (m.lanes lane).jobs with
  | nil =>
    dsimp only
    rw [← hjobs]
    exact judgeSpec_moved (fun _ => rfl) (fun _ h => absurd hjobs h)
  | cons slot jobs =>
    have hne : (m.lanes lane).jobs ≠ [] := by rw [hjobs]; exact List.cons_ne_nil _ _
    dsimp only
    rw [← hjobs]
    by_cases hmoved : pops ≠ (m.lanes lane).lanePops
    · rw [if_pos hmoved]
      by_cases hpush : c.countsFromPush lane = false
      · rw [if_pos ⟨hmoved, hpush⟩]
        refine judgeSpec_moved (fun _ => rfl) (fun h => ?_)
        rw [hpush] at h
        cases h
      · rw [if_neg (fun h => hpush h.2)]
        exact judgeSpec_moved (fun h => absurd h hne) (fun _ _ => rfl)
    · rw [if_neg hmoved, if_neg (fun h => hmoved h.1)]
      exact ⟨rfl, fun _ _ => rfl, rfl, rfl, (Classical.not_not.mp hmoved).symm, .inr rfl,
        fun h => absurd h hne, fun _ _ => rfl⟩

/-- A step that adds only a comparison of another lane leaves a lane's comparisons. -/
theorem mem_compared_of_ne {lane lane' pos pos' t t' : Nat} {l : List (Nat × Nat × Nat)} {b : Bool}
    (hne : lane' ≠ lane) :
    (lane', pos', t') ∈ (if b then (lane, pos, t) :: l else l) ↔ (lane', pos', t') ∈ l := by
  cases b with
  | false => exact Iff.rfl
  | true =>
    rw [if_pos rfl, List.mem_cons]
    constructor
    · rintro (h | h)
      · injection h with h1 _
        exact absurd h1 hne
      · exact h
    · exact Or.inr

/-- The state behind a look's turn at a lane. -/
def judged (s : State) (pc : Option Pc) (now lane : Nat) (r : Mem × Bool × Bool) : State where
  mem := r.1
  pc := pc
  clock := s.clock
  lookedAt := Function.update s.lookedAt lane now
  peeked := Function.update s.peeked lane
    (if (s.mem.lanes lane).jobs = [] then none else some (s.mem.lanes lane).pops)
  compared := if r.2.1 then (lane, (s.mem.lanes lane).pops, now) :: s.compared else s.compared

/-- What a look's turn leaves in the lane it judged. The count was read before the peek, so the ring
may have moved between the two; then it counts as moved. -/
theorem laneOk_judged {s : State} {pc : Option Pc} {now lane pops : Nat} {r : Mem × Bool × Bool}
    (h : LaneOk c s lane) (hspec : JudgeSpec c s.mem now lane pops r)
    (hpops : pops ≤ (s.mem.lanes lane).pops) (hnow : s.lookedAt lane ≤ now) :
    LaneOk c (judged s pc now lane r) lane where
  passed := by
    show (r.1.lanes lane).lanePops ≤ (r.1.lanes lane).pops
    rw [hspec.remembered, hspec.samePops]
    exact hpops
  still hcount heq := by
    show (r.1.lanes lane).laneProgress = Function.update s.lookedAt lane now lane ∨
      (lane, (r.1.lanes lane).pops, Function.update s.lookedAt lane now lane) ∈
        (if r.2.1 then (lane, (s.mem.lanes lane).pops, now) :: s.compared else s.compared)
    rw [Function.update_self, hspec.samePops]
    rcases hspec.outcome with hprogress | hcompared
    · exact .inl hprogress
    · rw [if_pos hcompared]
      exact .inr List.mem_cons_self
  peeked hcount pos hpos := by
    show (lane, pos, Function.update s.lookedAt lane now lane) ∈
      (if r.2.1 then (lane, (s.mem.lanes lane).pops, now) :: s.compared else s.compared)
    have hseen : (if (s.mem.lanes lane).jobs = [] then none
        else some (s.mem.lanes lane).pops) = some pos := by
      have hself : Function.update s.peeked lane (if (s.mem.lanes lane).jobs = [] then none
        else some (s.mem.lanes lane).pops) lane = some pos := hpos
      rwa [Function.update_self] at hself
    by_cases hjobs : (s.mem.lanes lane).jobs = []
    · rw [if_pos hjobs] at hseen
      cases hseen
    · rw [if_neg hjobs] at hseen
      cases hseen
      rw [Function.update_self, if_pos (hspec.pushed hcount hjobs)]
      exact List.mem_cons_self
  compared pos t hmem := by
    show t ≤ Function.update s.lookedAt lane now lane ∧ pos ≤ (r.1.lanes lane).pops ∧
      pos < (r.1.lanes lane).pops + (r.1.lanes lane).jobs.length ∧
      (pos = (r.1.lanes lane).pops → Function.update s.peeked lane
        (if (s.mem.lanes lane).jobs = [] then none else some (s.mem.lanes lane).pops) lane = some pos)
    rw [Function.update_self, Function.update_self, hspec.samePops, hspec.sameJobs]
    have hcases : pos = (s.mem.lanes lane).pops ∧ t = now ∧ (s.mem.lanes lane).jobs ≠ [] ∨
        (lane, pos, t) ∈ s.compared := by
      have hmem' : (lane, pos, t) ∈ (if r.2.1 then (lane, (s.mem.lanes lane).pops, now) :: s.compared
          else s.compared) := hmem
      by_cases hr : r.2.1 = true
      · rw [if_pos hr] at hmem'
        rcases List.mem_cons.mp hmem' with heq | hold
        · cases heq
          refine .inl ⟨rfl, rfl, fun hjobs => ?_⟩
          rw [hspec.empty hjobs] at hr
          cases hr
        · exact .inr hold
      · rw [if_neg hr] at hmem'
        exact .inr hmem'
    rcases hcases with ⟨rfl, rfl, hjobs⟩ | hold
    · have hlen := List.length_pos_of_ne_nil hjobs
      refine ⟨le_rfl, le_rfl, by omega, fun _ => ?_⟩
      rw [if_neg hjobs]
    · obtain ⟨ht, hle, hlt, -⟩ := h.compared pos t hold
      refine ⟨by omega, hle, hlt, fun heq => ?_⟩
      have hjobs : (s.mem.lanes lane).jobs ≠ [] := by
        intro hnil
        rw [hnil] at hlt
        simp at hlt
        omega
      rw [if_neg hjobs, heq]

/-! ## Every run -/

/-- What a pop leaves of a lane: a count that moved, and no comparison of the job behind. -/
theorem laneOk_pop {s : State} {lane slot : Nat} {jobs : List Nat} (h : LaneOk c s lane)
    (hjobs : (s.mem.lanes lane).jobs = slot :: jobs) :
    LaneOk c (s.setLane lane { s.mem.lanes lane with jobs, pops := (s.mem.lanes lane).pops + 1 })
      lane where
  passed := by
    show ((s.mem.setLane lane _).lanes lane).lanePops ≤ ((s.mem.setLane lane _).lanes lane).pops
    rw [Mem.setLane_self]
    have := h.passed
    show (s.mem.lanes lane).lanePops ≤ (s.mem.lanes lane).pops + 1
    omega
  still _ heq := by
    have hmoved : ((s.mem.setLane lane _).lanes lane).lanePops
        = ((s.mem.setLane lane _).lanes lane).pops := heq
    rw [Mem.setLane_self] at hmoved
    have := h.passed
    have hmoved' : (s.mem.lanes lane).lanePops = (s.mem.lanes lane).pops + 1 := hmoved
    omega
  peeked := h.peeked
  compared pos t hmem := by
    obtain ⟨ht, hle, hlt, -⟩ := h.compared pos t hmem
    show t ≤ s.lookedAt lane ∧ pos ≤ ((s.mem.setLane lane _).lanes lane).pops ∧
      pos < ((s.mem.setLane lane _).lanes lane).pops
        + ((s.mem.setLane lane _).lanes lane).jobs.length ∧
      (pos = ((s.mem.setLane lane _).lanes lane).pops → s.peeked lane = some pos)
    rw [Mem.setLane_self]
    rw [hjobs, List.length_cons] at hlt
    show t ≤ s.lookedAt lane ∧ pos ≤ (s.mem.lanes lane).pops + 1 ∧
      pos < (s.mem.lanes lane).pops + 1 + jobs.length ∧
      (pos = (s.mem.lanes lane).pops + 1 → s.peeked lane = some pos)
    exact ⟨ht, by omega, by omega, fun heq => by omega⟩

theorem laneOk_push {s : State} {lane slot : Nat} (h : LaneOk c s lane) :
    LaneOk c (s.setLane lane { s.mem.lanes lane with jobs := (s.mem.lanes lane).jobs ++ [slot] })
      lane where
  passed := by
    show ((s.mem.setLane lane _).lanes lane).lanePops ≤ ((s.mem.setLane lane _).lanes lane).pops
    rw [Mem.setLane_self]
    exact h.passed
  still hcount heq := by
    show ((s.mem.setLane lane _).lanes lane).laneProgress = s.lookedAt lane ∨
      (lane, ((s.mem.setLane lane _).lanes lane).pops, s.lookedAt lane) ∈ s.compared
    have heq' : ((s.mem.setLane lane _).lanes lane).lanePops
        = ((s.mem.setLane lane _).lanes lane).pops := heq
    rw [Mem.setLane_self] at heq' ⊢
    exact h.still hcount heq'
  peeked := h.peeked
  compared pos t hmem := by
    obtain ⟨ht, hle, hlt, hpeeked⟩ := h.compared pos t hmem
    show t ≤ s.lookedAt lane ∧ pos ≤ ((s.mem.setLane lane _).lanes lane).pops ∧
      pos < ((s.mem.setLane lane _).lanes lane).pops
        + ((s.mem.setLane lane _).lanes lane).jobs.length ∧
      (pos = ((s.mem.setLane lane _).lanes lane).pops → s.peeked lane = some pos)
    rw [Mem.setLane_self, List.length_append]
    exact ⟨ht, hle, Nat.lt_of_lt_of_le hlt (Nat.add_le_add_left (Nat.le_add_right _ _) _), hpeeked⟩

theorem seenOk_congr {s s' : State} {e : Seen} (h : SeenOk c s e)
    (hlast : s'.mem.lastLook = s.mem.lastLook) (hpeeked : s'.peeked = s.peeked)
    (hcompared : s'.compared = s.compared) : SeenOk c s' e where
  counted hcount hpos hdue := by
    rw [hlast] at hdue ⊢
    rw [hcompared]
    exact h.counted hcount hpos hdue
  pushed hcount hpos := by
    rw [hpeeked] at hpos
    rw [hlast, hcompared]
    exact h.pushed hcount hpos
  peeked hcount t hmem := by
    rw [hcompared] at hmem
    rw [hpeeked]
    exact h.peeked hcount t hmem

/-- A ring that only grew, or was popped, keeps the loop at its point. -/
theorem pcOk_ring {s : State} {lane : Nat} {l : Lane} {pc : Option Pc} (h : PcOk c s pc)
    (hpops : (s.mem.lanes lane).pops ≤ l.pops)
    (hlane : l.lanePops = (s.mem.lanes lane).lanePops) : PcOk c (s.setLane lane l) pc := by
  have hgrown : ∀ lane' n, n ≤ (s.mem.lanes lane').pops →
      n ≤ ((s.setLane lane l).mem.lanes lane').pops := by
    intro lane' n hn
    rcases eq_or_ne lane' lane with rfl | hne
    · show n ≤ ((s.mem.setLane lane' l).lanes lane').pops
      rw [Mem.setLane_self]
      omega
    · show n ≤ ((s.mem.setLane lane l).lanes lane').pops
      rw [Mem.setLane_of_ne _ _ hne]
      exact hn
  have hsame : ∀ lane', ((s.setLane lane l).mem.lanes lane').lanePops
      = (s.mem.lanes lane').lanePops := by
    intro lane'
    rcases eq_or_ne lane' lane with rfl | hne
    · show ((s.mem.setLane lane' l).lanes lane').lanePops = _
      rw [Mem.setLane_self, hlane]
    · show ((s.mem.setLane lane l).lanes lane').lanePops = _
      rw [Mem.setLane_of_ne _ _ hne]
  have hseen : ∀ e, SeenOk c s e → SeenOk c (s.setLane lane l) e :=
    fun e he => seenOk_congr he rfl rfl rfl
  rcases pc with _ | pc
  · exact h
  · cases pc with
    | look now todo woken => exact h
    | lookPeek now lane' pops todo woken =>
      obtain ⟨hnow, hle, hold, hlooked⟩ := h
      exact ⟨hnow, hgrown _ _ hle, by rw [hsame]; exact hold, hlooked⟩
    | ask now best todo seen =>
      obtain ⟨hlooked, hnow, htodo, hbest, hall⟩ := h
      exact ⟨hlooked, hnow, htodo, hbest, fun e he => hseen e (hall e he)⟩
    | askPops now best lane' pos slot todo seen =>
      obtain ⟨⟨hlooked, hnow, htodo, hbest, hall⟩, hlt, hcount, hold, hle⟩ := h
      exact ⟨⟨hlooked, hnow, htodo, hbest, fun e he => hseen e (hall e he)⟩, hlt, hcount,
        by rw [hsame]; exact hold, hgrown _ _ hle⟩

theorem ok_ring {s : State} {lane : Nat} {l : Lane} (h : Ok c s)
    (hok : LaneOk c (s.setLane lane l) lane) (hpops : (s.mem.lanes lane).pops ≤ l.pops)
    (hlane : l.lanePops = (s.mem.lanes lane).lanePops) : Ok c (s.setLane lane l) where
  lanes lane' := by
    rcases eq_or_ne lane' lane with rfl | hne
    · exact hok
    · exact (h.lanes lane').same (Mem.setLane_of_ne _ _ hne) rfl rfl (fun _ _ => Iff.rfl)
  looked := h.looked
  clock := h.clock
  point := pcOk_ring h.point hpops hlane

/-- A look's turn at a lane, of the whole state. -/
theorem ok_judge {s : State} {now lane pops : Nat} {todo : List Nat} {woken woken' : Nat}
    (h : Ok c s) (hpc : s.pc = some (.lookPeek now lane pops todo woken)) :
    Ok c (judged s (some (.look now todo woken')) now lane (judge c s.mem now lane pops)) := by
  have hspec := judge_spec (c := c) s.mem now lane pops
  have hpoint := h.point
  rw [hpc] at hpoint
  obtain ⟨hnow, hle, -, hlooked⟩ := hpoint
  constructor
  · intro lane'
    rcases eq_or_ne lane' lane with rfl | hne
    · exact laneOk_judged (h.lanes lane') hspec hle (hnow ▸ h.looked lane')
    · exact (h.lanes lane').same (hspec.others lane' hne) (Function.update_of_ne hne ..)
        (Function.update_of_ne hne ..) (fun _ _ => mem_compared_of_ne hne)
  · intro lane'
    show Function.update s.lookedAt lane now lane' ≤ (judge c s.mem now lane pops).1.lastLook
    rw [hspec.lastLook]
    rcases eq_or_ne lane' lane with rfl | hne
    · rw [Function.update_self, hnow]
    · rw [Function.update_of_ne hne]
      exact h.looked lane'
  · show (judge c s.mem now lane pops).1.lastLook ≤ s.clock
    rw [hspec.lastLook]
    exact h.clock
  · refine ⟨?_, ?_⟩
    · show now = (judge c s.mem now lane pops).1.lastLook
      rw [hspec.lastLook, hnow]
    · intro lane' hlt hnot
      show Function.update s.lookedAt lane now lane' = (judge c s.mem now lane pops).1.lastLook
      rw [hspec.lastLook]
      rcases eq_or_ne lane' lane with rfl | hne
      · rw [Function.update_self, hnow]
      · rw [Function.update_of_ne hne]
        exact hlooked lane' hlt (fun hmem => (List.mem_cons.mp hmem).elim hne hnot)

theorem laneProgress_le_waitedSince (m : Mem) (lane slot : Nat) :
    (m.lanes lane).laneProgress ≤ waitedSince m lane slot false := by
  simp only [waitedSince, Bool.false_eq_true, if_false]
  by_cases hgt : m.submitNs slot > (m.lanes lane).laneProgress
  · rw [if_pos hgt]
    exact Nat.le_of_lt hgt
  · rw [if_neg hgt]

/-- The head of a lane that counts from the push, peeked by `next_look`. -/
theorem seenOk_pushed {s : State} {lane : Nat} {due : Int} (h : Ok c s) (hlooked : LookedBut c s [])
    (hlt : lane < c.lanes) (hcount : c.countsFromPush lane = true) :
    SeenOk c s ⟨lane, (s.mem.lanes lane).pops, due⟩ where
  counted hcount' _ _ := by
    rw [hcount] at hcount'
    cases hcount'
  pushed _ hpos := by
    rw [← hlooked lane hlt (List.not_mem_nil)]
    exact (h.lanes lane).peeked hcount _ hpos
  peeked _ t hmem := ((h.lanes lane).compared _ t hmem).2.2.2 rfl

/-- The head of a lane that counts progress. Its deadline is not later than the last look only where
the ring stands as that look left it. -/
theorem seenOk_counted {s : State} {now lane pos slot : Nat} (h : Ok c s)
    (hlooked : LookedBut c s []) (hnow : s.mem.lastLook ≤ now) (hlt : lane < c.lanes)
    (hcount : c.countsFromPush lane = false) (hold : (s.mem.lanes lane).lanePops ≤ pos)
    (hpos : pos ≤ (s.mem.lanes lane).pops) :
    SeenOk c s ⟨lane, pos, ((if (s.mem.lanes lane).pops ≠ (s.mem.lanes lane).lanePops then now
      else waitedSince s.mem lane slot false : Nat) : Int) + c.stallThreshold lane⟩ where
  counted _ hthreshold hdue := by
    have hthreshold' : 0 < c.stallThreshold lane := hthreshold
    have hat := hlooked lane hlt (List.not_mem_nil)
    by_cases hmoved : (s.mem.lanes lane).pops ≠ (s.mem.lanes lane).lanePops
    · have hdue' : ((if (s.mem.lanes lane).pops ≠ (s.mem.lanes lane).lanePops then now
        else waitedSince s.mem lane slot false : Nat) : Int) + c.stallThreshold lane ≤ s.mem.lastLook := hdue
      rw [if_pos hmoved] at hdue'
      omega
    · have heq := Classical.not_not.mp hmoved
      have hdue' : ((if (s.mem.lanes lane).pops ≠ (s.mem.lanes lane).lanePops then now
        else waitedSince s.mem lane slot false : Nat) : Int) + c.stallThreshold lane ≤ s.mem.lastLook := hdue
      rw [if_neg hmoved] at hdue'
      rcases (h.lanes lane).still hcount heq.symm with hprogress | hcompared
      · have hle := laneProgress_le_waitedSince s.mem lane slot
        omega
      · rw [hat] at hcompared
        have hhead : pos = (s.mem.lanes lane).pops := by omega
        show (lane, pos, s.mem.lastLook) ∈ s.compared
        rw [hhead]
        exact hcompared
  pushed hcount' _ := by
    have hpush : c.countsFromPush lane = true := hcount'
    rw [hcount] at hpush
    cases hpush
  peeked hcount' _ _ := by
    have hpush : c.countsFromPush lane = true := hcount'
    rw [hcount] at hpush
    cases hpush

/-- A state that differs in the loop's point only. -/
theorem Ok.atPoint {s : State} (h : Ok c s) (pc : Option Pc) (hpc : PcOk c s pc) :
    Ok c { s with pc := pc } where
  lanes lane := (h.lanes lane).same rfl rfl rfl (fun _ _ => Iff.rfl)
  looked := h.looked
  clock := h.clock
  point := by
    have hseen : ∀ e, SeenOk c s e → SeenOk c { s with pc := pc } e :=
      fun e he => seenOk_congr he rfl rfl rfl
    show PcOk c { s with pc := pc } pc
    rcases pc with _ | pc
    · exact hpc
    · cases pc with
      | look now todo woken => exact hpc
      | lookPeek now lane pops todo woken => exact hpc
      | ask now best todo seen =>
        obtain ⟨hlooked, hnow, htodo, hbest, hall⟩ := hpc
        exact ⟨hlooked, hnow, htodo, hbest, fun e he => hseen e (hall e he)⟩
      | askPops now best lane pos slot todo seen =>
        obtain ⟨⟨hlooked, hnow, htodo, hbest, hall⟩, hrest⟩ := hpc
        exact ⟨⟨hlooked, hnow, htodo, hbest, fun e he => hseen e (hall e he)⟩, hrest⟩

theorem ok_go {s s' : State} {pc : Pc} {wakes : Bool} (h : Ok c s)
    (hpc : s.pc = some pc) (hgo : go c s wakes pc = some s') : Ok c s' := by
  have hpoint := h.point
  rw [hpc] at hpoint
  cases pc with
  | look now todo woken =>
    cases todo with
    | nil => cases hgo
    | cons lane todo =>
      obtain ⟨hnow, hlooked⟩ := hpoint
      cases hgo
      exact h.atPoint _ ⟨hnow, le_rfl, (h.lanes lane).passed, hlooked⟩
  | lookPeek now lane pops todo woken =>
    cases hgo
    exact ok_judge h hpc
  | ask now best todo seen =>
    cases todo with
    | nil => cases hgo
    | cons lane todo =>
      obtain ⟨hlooked, hnow, htodo, hbest, hall⟩ := hpoint
      have hlt := htodo lane List.mem_cons_self
      have htodo' : ∀ lane ∈ todo, lane < c.lanes :=
        fun lane' hmem => htodo lane' (List.mem_cons_of_mem _ hmem)
      simp only [go] at hgo
      cases hjobs : (s.mem.lanes lane).jobs with
      | nil =>
        rw [hjobs] at hgo
        cases hgo
        exact h.atPoint _ ⟨hlooked, hnow, htodo', hbest, hall⟩
      | cons slot jobs =>
        rw [hjobs] at hgo
        dsimp only at hgo
        by_cases hcount : c.countsFromPush lane = true
        · rw [if_pos hcount] at hgo
          cases hgo
          refine h.atPoint _ ⟨hlooked, hnow, htodo', hbest.offer ⟨lane, _, _⟩, ?_⟩
          intro e he
          rcases List.mem_cons.mp he with rfl | he
          · exact seenOk_pushed h hlooked hlt hcount
          · exact hall e he
        · rw [if_neg hcount] at hgo
          cases hgo
          exact h.atPoint _ ⟨⟨hlooked, hnow, htodo', hbest, hall⟩, hlt, by simpa using hcount,
            (h.lanes lane).passed, le_rfl⟩
  | askPops now best lane pos slot todo seen =>
    obtain ⟨⟨hlooked, hnow, htodo, hbest, hall⟩, hlt, hcount, hold, hle⟩ := hpoint
    cases hgo
    refine h.atPoint _ ⟨hlooked, hnow, htodo, hbest.offer ⟨lane, pos, _⟩, ?_⟩
    intro e he
    rcases List.mem_cons.mp he with rfl | he
    · exact seenOk_counted h hlooked hnow hlt hcount hold hle
    · exact hall e he

/-! ## The runs -/

/-- A step of the loop's between its calls. The pops alone run beside a call. -/
theorem Ok.step {s s' : State} {a : Act} (h : Ok c s) (ha : next c s a = some s') : Ok c s' := by
  have hpoint := h.point
  cases a with
  | park slot now =>
    simp only [next] at ha
    split at ha
    · rename_i hidle
      cases ha
      rw [hidle.1] at hpoint
      refine ⟨fun lane => (h.lanes lane).same rfl rfl rfl fun _ _ => Iff.rfl, h.looked,
        h.clock.trans hidle.2, ?_⟩
      show PcOk c _ s.pc
      rw [hidle.1]
      exact hpoint
    · cases ha
  | push lane slot =>
    simp only [next] at ha
    split at ha
    · cases ha
      exact ok_ring h (laneOk_push (h.lanes lane)) le_rfl rfl
    · cases ha
  | pop lane =>
    simp only [next] at ha
    cases hjobs : (s.mem.lanes lane).jobs with
    | nil =>
      rw [hjobs] at ha
      cases ha
    | cons slot jobs =>
      rw [hjobs] at ha
      cases ha
      exact ok_ring h (laneOk_pop (h.lanes lane) hjobs) (Nat.le_succ _) rfl
  | look now =>
    simp only [next] at ha
    split at ha
    · rename_i hidle
      cases ha
      have hlater := h.clock.trans hidle.2
      refine ⟨fun lane => (h.lanes lane).same rfl rfl rfl fun _ _ => Iff.rfl,
        fun lane => (h.looked lane).trans hlater, le_rfl, rfl, ?_⟩
      intro lane hlt hnot
      exact absurd (List.mem_range.mpr hlt) hnot
    · cases ha
  | ask now =>
    simp only [next] at ha
    split at ha
    · rename_i hidle
      cases ha
      rw [hidle.1] at hpoint
      refine ⟨fun lane => (h.lanes lane).same rfl rfl rfl fun _ _ => Iff.rfl, h.looked,
        h.clock.trans hidle.2, hpoint, h.clock.trans hidle.2, ?_, bestOf_nil _, ?_⟩
      · exact fun lane hmem => List.mem_range.mp hmem
      · intro e he
        cases he
    · cases ha
  | go wakes =>
    obtain ⟨pc, hpc, hgo⟩ := Option.bind_eq_some_iff.mp ha
    exact ok_go h hpc hgo
  | looked woken =>
    simp only [next] at ha
    split at ha
    · rename_i woken' hpc
      split at ha
      · cases ha
        rw [hpc] at hpoint
        exact h.atPoint none hpoint.2
      · cases ha
    · cases ha
  | answer best =>
    simp only [next] at ha
    split at ha
    · rename_i best' seen hpc
      split at ha
      · cases ha
        rw [hpc] at hpoint
        exact h.atPoint none hpoint.1
      · cases ha
    · cases ha

theorem ok_init : Ok c State.init where
  lanes lane := by
    refine ⟨le_rfl, fun _ _ => .inl rfl, fun _ pos hpos => ?_, fun pos t hmem => ?_⟩
    · cases hpos
    · cases hmem
  looked _ := le_rfl
  clock := le_rfl
  point _ _ _ := rfl

theorem ok_run (e : Execution c) : ∀ k ≤ e.labels.length, Ok c (e.state k) :=
  e.invariant ok_init fun _ _ _ h ha => h.step ha

/-- A head whose deadline is not later than the last look, as the condition has it: on a lane that
counts from the push, the head that look peeked there. -/
def Met (c : Pool) (s : State) (x : Seen) : Prop :=
  (c.countsFromPush x.lane = true → s.peeked x.lane = some x.pos) ∧
    (c.countsFromPush x.lane = false → c.stallThreshold x.lane ≤ 0 → Judged s x)

/-- **When `next_look` is on time**, whatever the pool's threads popped between the loop's reads. -/
theorem nextLook_onTime_iff (e : Execution c) {k now : Nat} {best : Int} {seen : List Seen}
    (hk : k ≤ e.labels.length) (hpc : (e.state k).pc = some (.ask now best [] seen)) :
    OnTime (e.state k) best seen ↔
      ∀ x ∈ seen, x.due ≤ (e.state k).mem.lastLook → Met c (e.state k) x := by
  have h := ok_run e k hk
  have hpoint := h.point
  rw [hpc] at hpoint
  obtain ⟨-, -, -, hbest, hall⟩ := hpoint
  -- what the call offers is later than the last look
  have hlater : best ≠ 0 → ((e.state k).mem.lastLook : Int) < best := by
    intro hne
    obtain ⟨x, -, hdue, hlt⟩ := hbest.offered hne
    omega
  constructor
  · intro hon x hx hdue
    have hjudged : Judged (e.state k) x := by
      by_contra hnot
      obtain ⟨hne, hle⟩ := hon.intime x hx hnot
      have := hlater hne
      omega
    refine ⟨fun hpush => ?_, fun _ _ => hjudged⟩
    obtain ⟨t, hmem, -⟩ := hjudged
    exact (hall x hx).peeked hpush t hmem
  · intro hmet
    have hjudged : ∀ x ∈ seen, x.due ≤ (e.state k).mem.lastLook → Judged (e.state k) x := by
      intro x hx hdue
      obtain ⟨hpush, hcount⟩ := hmet x hx hdue
      by_cases hfrom : c.countsFromPush x.lane = true
      · exact ⟨_, (hall x hx).pushed hfrom (hpush hfrom), hdue⟩
      · have hfrom' : c.countsFromPush x.lane = false := by simpa using hfrom
        by_cases hpos : 0 < c.stallThreshold x.lane
        · exact ⟨_, (hall x hx).counted hfrom' hpos hdue, hdue⟩
        · exact hcount hfrom' (by omega)
    constructor
    · intro x hx hnot
      refine hbest.least x hx ?_
      by_contra hle
      exact hnot (hjudged x hx (by omega))
    · intro hne
      obtain ⟨x, hx, hdue, hlt⟩ := hbest.offered hne
      refine ⟨x, hx, hdue, ?_⟩
      rintro ⟨t, hmem, hle⟩
      -- no look has been made later than the last
      have hlooked := ((h.lanes x.lane).compared x.pos t hmem).1
      have hlast := h.looked x.lane
      omega

/-- One lane of a free-threaded interpreter, a threshold of ten. -/
def freeThreaded : Pool := ⟨1, true, false, fun _ => false, 10⟩

/-- Two jobs are pushed a moment apart, a look wakes a thread for the first and the thread takes it;
then the loop asks. -/
def uncovered (second : Nat) : List Act :=
  [.park 0 1, .push 0 0, .park 1 second, .push 0 1, .look 20, .go true, .go true, .looked 1, .pop 0,
    .ask 21, .go true]

theorem uncovered_runs (second : Nat) (h : second = 2 ∨ second = 15) :
    ((system freeThreaded).run (system freeThreaded).init (uncovered second)).isSome := by
  rcases h with rfl | rfl
  · decide
  · decide

/-- The second job's threshold runs out behind the look, and the call offers it. -/
theorem nextLook_onTime_later :
    let e : Execution freeThreaded := .ofRun _ (uncovered 15) (uncovered_runs 15 (.inr rfl))
    OnTime (e.state 11) 25 [⟨0, 1, 25⟩] := by
  intro e
  have hpc : (e.state 11).pc = some (.ask 21 25 [] [⟨0, 1, 25⟩]) := by decide
  refine (nextLook_onTime_iff e (by decide) hpc).mpr fun x hx hdue => ?_
  obtain rfl : x = ⟨0, 1, 25⟩ := by simpa using hx
  exact absurd hdue (by decide)

/-- The second job's threshold ran out before the look, which looked at the first: nothing has judged
it, and the call answers 0. -/
theorem answered_zero_late :
    ¬ ∀ (c : Pool) (e : Execution c) (k now : Nat) (best : Int) (seen : List Seen),
      k ≤ e.labels.length → (e.state k).pc = some (.ask now best [] seen) →
      OnTime (e.state k) best seen := by
  intro h
  have hon := h freeThreaded
    (.ofRun _ (uncovered 2) (uncovered_runs 2 (.inl rfl))) 11 21 0 [⟨0, 1, 12⟩] (by decide)
    (by decide)
  exact (hon.intime ⟨0, 1, 12⟩ List.mem_cons_self (by decide)).1 rfl

end MojoHttp.Offload.Stall
