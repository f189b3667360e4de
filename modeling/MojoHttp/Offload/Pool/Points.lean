import MojoHttp.Offload.Pool.Dealt

/-!
# Where a thread of the pool stands

What is known of a thread from the point it stands at: whether it has a channel of its own, that it
has not been told to stop, and that it has read no pill it has still to answer.

* **`Placed`** — this, at every point.
* **`advance_kept`** — a thread's own words are its own: another's step adds to its channel at most.
* **`placed_of_execution`** — `Placed` holds at every instant.
-/

namespace MojoHttp

namespace Offload

open Threads (Next Program)

namespace Pool

variable {c : Setup}

/-! ## The parts of the memory -/

@[simp] theorem setLane_life (m : Mem) (lane : Nat) (f : Lane → Lane) :
    (m.setLane lane f).life = m.life := rfl

@[simp] theorem setLane_pilled (m : Mem) (lane : Nat) (f : Lane → Lane) :
    (m.setLane lane f).pilled = m.pilled := rfl

@[simp] theorem setRec_life (m : Mem) (t : Nat) (f : Rec → Rec) : (m.setRec t f).life = m.life := rfl

@[simp] theorem setRec_pilled (m : Mem) (t : Nat) (f : Rec → Rec) :
    (m.setRec t f).pilled = m.pilled := rfl

@[simp] theorem setLife_self (m : Mem) (i : Nat) (life : Life) :
    (m.setLife i life).life i = life := Function.update_self ..

theorem setLife_of_ne (m : Mem) {i j : Nat} (life : Life) (h : j ≠ i) :
    (m.setLife i life).life j = m.life j := Function.update_of_ne h ..

@[simp] theorem setLife_recs (m : Mem) (i : Nat) (life : Life) : (m.setLife i life).recs = m.recs := rfl

@[simp] theorem setLife_lanes (m : Mem) (i : Nat) (life : Life) :
    (m.setLife i life).lanes = m.lanes := rfl

@[simp] theorem setLife_pilled (m : Mem) (i : Nat) (life : Life) :
    (m.setLife i life).pilled = m.pilled := rfl

@[simp] theorem give_recs (m : Mem) (i : Nat) (job : Job) : (m.give i job).recs = m.recs := by
  cases job <;> rfl

@[simp] theorem give_lanes (m : Mem) (i : Nat) (job : Job) : (m.give i job).lanes = m.lanes := by
  cases job <;> rfl

@[simp] theorem give_pilled (m : Mem) (i : Nat) (job : Job) : (m.give i job).pilled = m.pilled := by
  cases job <;> rfl

theorem give_life_of_ne (m : Mem) {i j : Nat} (job : Job) (h : j ≠ i) :
    (m.give i job).life j = m.life j := by
  cases job with
  | stop => exact setLife_of_ne m .stopped h
  | _ => rfl

@[simp] theorem access_recs (m : Mem) (lane : Nat) (pc : Ring.Pc)
    (behind : Next Ring.Pc Ring.Res → Next Pc Res) : (m.access lane pc behind).1.recs = m.recs := rfl

@[simp] theorem access_life (m : Mem) (lane : Nat) (pc : Ring.Pc)
    (behind : Next Ring.Pc Ring.Res → Next Pc Res) : (m.access lane pc behind).1.life = m.life := rfl

@[simp] theorem access_pilled (m : Mem) (lane : Nat) (pc : Ring.Pc)
    (behind : Next Ring.Pc Ring.Res → Next Pc Res) :
    (m.access lane pc behind).1.pilled = m.pilled := rfl

/-! ## A thread's own words -/

/-- The words of thread `j` are as they were, and what its channel held is in it. -/
structure Kept (m m' : Mem) (j : Nat) : Prop where
  life : m'.life j = m.life j
  lane : (m'.recs j).lane = (m.recs j).lane
  pill : (m'.recs j).pill = (m.recs j).pill
  channel : (m.recs j).channel <+: (m'.recs j).channel

theorem Kept.of_eq {m m' : Mem} {j : Nat} (hrec : m'.recs j = m.recs j) (hlife : m'.life j = m.life j) :
    Kept m m' j :=
  ⟨hlife, by rw [hrec], by rw [hrec], hrec ▸ List.prefix_rfl⟩

theorem Kept.refl {m : Mem} {j : Nat} : Kept m m j := .of_eq rfl rfl

/-- Another one adds to the channel, or changes the state. -/
theorem Kept.update {m m' : Mem} {t j : Nat} {r : Rec} (hrecs : m'.recs = Function.update m.recs t r)
    (hlife : m'.life = m.life) (hlane : r.lane = (m.recs t).lane) (hpill : r.pill = (m.recs t).pill)
    (hchannel : (m.recs t).channel <+: r.channel) : Kept m m' j := by
  rcases eq_or_ne j t with rfl | hne
  · have hrec : m'.recs j = r := by rw [hrecs, Function.update_self]
    exact ⟨congrFun hlife j, by rw [hrec, hlane], by rw [hrec, hpill], by rw [hrec]; exact hchannel⟩
  · exact .of_eq (by rw [hrecs, Function.update_of_ne hne]) (congrFun hlife j)

theorem kept_wake (m : Mem) (lane : Nat) (after : After) (w : Wake) (j : Nat) :
    Kept m (wakeStep c m lane after w).1 j := by
  cases w with
  | lane | state | seq | parked | wakes => exact .refl
  | claim t =>
    simp only [wakeStep]
    split
    · exact .update rfl rfl rfl rfl List.prefix_rfl
    · exact .refl
  | uncount | count => exact .of_eq rfl rfl
  | poke t => exact .update rfl rfl rfl rfl (List.prefix_append _ _)
  | pokeSocket =>
    simp only [wakeStep]
    split
    · exact .of_eq rfl rfl
    · exact .refl

theorem putNext_recs (m : Mem) (lane : Nat) (rest : List Nat) (left : Nat) :
    (putNext m lane rest left).1.recs = m.recs := by cases left <;> rfl

theorem putNext_life (m : Mem) (lane : Nat) (rest : List Nat) (left : Nat) :
    (putNext m lane rest left).1.life = m.life := by cases left <;> rfl

theorem stopScan_recs (m : Mem) (lane : Nat) (rest : List Nat) (t pilled : Nat) :
    (stopScan c m lane rest t pilled).1.recs = m.recs := by
  unfold stopScan
  split
  · rfl
  · exact putNext_recs ..

theorem stopScan_life (m : Mem) (lane : Nat) (rest : List Nat) (t pilled : Nat) :
    (stopScan c m lane rest t pilled).1.life = m.life := by
  unfold stopScan
  split
  · rfl
  · exact putNext_life ..

theorem kept_stop (m : Mem) (st : Stop) (j : Nat) : Kept m (stopStep c m st).1 j := by
  cases st with
  | scan lane rest t pilled =>
    simp only [stopStep]
    split
    · exact .refl
    · exact .of_eq (by rw [stopScan_recs]) (by rw [stopScan_life])
  | pill lane rest t pilled =>
    have hadd : Kept m (m.setRec t fun r => { r with channel := r.channel ++ [Own.pill] }) j :=
      .update rfl rfl rfl rfl (List.prefix_append _ _)
    obtain ⟨hlife, hlane, hpill, hchannel⟩ := hadd
    simp only [stopStep]
    refine ⟨?_, ?_, ?_, ?_⟩
    · rw [stopScan_life]
      exact hlife
    all_goals
      rw [stopScan_recs]
      assumption
  | put lane rest left =>
    simp only [stopStep]
    split
    · exact .of_eq (by rw [putNext_recs]; rfl) (by rw [putNext_life]; rfl)
    · exact .refl

theorem found_of_ne (m : Mem) {i j : Nat} (look : Look) (job : Job) (fromRing : Bool) (h : j ≠ i) :
    (found c m i look job fromRing).1.recs = m.recs ∧
      (found c m i look job fromRing).1.life j = m.life j := by
  unfold found
  split
  · exact ⟨rfl, rfl⟩
  · exact ⟨give_recs m i job, give_life_of_ne m job h⟩

theorem unparked_of_ne (m : Mem) {i j : Nat} (got : Own) (h : j ≠ i) :
    (unparked m i got).1.recs = m.recs ∧ (unparked m i got).1.life j = m.life j := by
  cases got with
  | pill => exact ⟨rfl, give_life_of_ne m .stop h⟩
  | poke => exact ⟨rfl, rfl⟩

/-- A thread's step leaves another's words as they were. -/
theorem thread_of_ne (m : Mem) {i j : Nat} (step : Step) (h : j ≠ i) :
    (threadStep c m i step).1.recs j = m.recs j ∧ (threadStep c m i step).1.life j = m.life j := by
  cases step with
  | enter | clock | pollLoad | seqAdd => exact ⟨rfl, rfl⟩
  | pollStore | pollPoke | pop | spinUp | spinBack | chain | count | recheck | recheckPoke | pollReset
  | sockCount | sockPop | sockPoke => exact ⟨rfl, rfl⟩
  | seqStore | announce | leavePill => exact ⟨Function.update_of_ne h _ _, rfl⟩
  | pill look =>
    simp only [threadStep]
    split
    · exact ⟨rfl, give_life_of_ne m .stop h⟩
    · exact ⟨rfl, rfl⟩
  | pollOwn look now =>
    simp only [threadStep]
    split
    · exact ⟨rfl, rfl⟩
    · exact ⟨Function.update_of_ne h _ _, rfl⟩
    · obtain ⟨hrecs, hlife⟩ := found_of_ne (c := c) (m.setRec i fun r => { r with channel := _ }) look
        .stop false h
      exact ⟨(congrFun hrecs j).trans (Function.update_of_ne h _ _), hlife⟩
  | pollSocket look now =>
    simp only [threadStep]
    split
    · exact ⟨rfl, rfl⟩
    · exact ⟨rfl, rfl⟩
    · obtain ⟨hrecs, hlife⟩ := found_of_ne (c := c)
        (m.setLane (c.lane i) fun l => { l with socket := _ }) look .stop false h
      exact ⟨congrFun hrecs j, hlife⟩
    · obtain ⟨hrecs, hlife⟩ := found_of_ne (c := c)
        (m.setLane (c.lane i) fun l => { l with socket := _ }) look (.message _) false h
      exact ⟨congrFun hrecs j, hlife⟩
  | spinDown found =>
    cases found with
    | none => exact ⟨rfl, rfl⟩
    | some job => exact ⟨congrFun (give_recs _ i job.1) j, give_life_of_ne _ job.1 h⟩
  | recheckSocket | sockRecv =>
    simp only [threadStep]
    split <;> exact ⟨rfl, rfl⟩
  | block | unpark | leave | leaveRecv =>
    simp only [threadStep]
    split
    all_goals first
      | exact ⟨rfl, rfl⟩
      | exact ⟨Function.update_of_ne h _ _, rfl⟩
  | unparkCount got =>
    obtain ⟨hrecs, hlife⟩ := unparked_of_ne
      (m.setLane (c.lane i) fun l => { l with parkedReg := l.parkedReg - 1 }) got h
    exact ⟨congrFun hrecs j, hlife⟩
  | unparkStore got =>
    obtain ⟨hrecs, hlife⟩ := unparked_of_ne (m.setRec i fun r => { r with state := .running }) got h
    exact ⟨(congrFun hrecs j).trans (Function.update_of_ne h _ _), hlife⟩
  | leaveCount job => exact ⟨congrFun (give_recs _ i job) j, give_life_of_ne _ job h⟩
  | leaveStore job =>
    exact ⟨(congrFun (give_recs _ i job) j).trans (Function.update_of_ne h _ _), give_life_of_ne _ job h⟩
  | sockUncount found fromRing =>
    cases found with
    | none => exact ⟨rfl, rfl⟩
    | some job => exact ⟨congrFun (give_recs _ i job) j, give_life_of_ne _ job h⟩
  | unregister =>
    simp only [threadStep]
    split
    · exact ⟨rfl, rfl⟩
    · exact ⟨rfl, setLife_of_ne _ .left h⟩
  | retire =>
    simp only [threadStep]
    split
    · exact ⟨Function.update_of_ne h _ _, rfl⟩
    · exact ⟨rfl, rfl⟩

/-- **Another's step keeps a thread's words.** -/
theorem advance_kept (m : Mem) (pc : Pc) (j : Nat) (h : ∀ step, pc ≠ .thread j step) :
    Kept m (advance c m pc).1 j := by
  cases pc with
  | thread i step =>
    have hne : j ≠ i := fun heq => h step (heq ▸ rfl)
    obtain ⟨hrec, hlife⟩ := thread_of_ne (c := c) m step hne
    exact .of_eq hrec hlife
  | wake lane after w => exact kept_wake m lane after w j
  | stop st => exact kept_stop m st j
  | send lane slot =>
    simp only [advance]
    split
    · exact .of_eq rfl rfl
    · exact .refl
  | push | pops | peek => exact .of_eq rfl rfl
  | _ => exact .of_eq rfl rfl

/-! ## What a point says of its thread -/

/-- The steps of a thread with a channel of its own. -/
def Step.needsOwn : Step → Bool
  | .pollOwn _ _ | .seqAdd | .seqStore _ | .announce | .count | .recheck _ | .recheckSocket => true
  | .recheckPoke | .block | .unpark _ | .unparkCount _ | .unparkStore _ | .pollReset => true
  | .leave _ | .leaveCount _ | .leaveRecv _ | .leavePill _ | .leaveStore _ => true
  | _ => false

/-- The steps of a thread that looks for a job. -/
def Step.looks : Step → Bool
  | .enter _ | .chain _ _ | .unregister | .retire => false
  | _ => true

/-- The steps of a thread that has read its pill while it held a job, and has it still to answer. -/
def Step.owes : Step → Bool
  | .enter _ | .pill _ | .leaveStore _ | .unregister | .retire => true
  | _ => false

structure PointOk (c : Setup) (m : Mem) (i : Nat) (step : Step) : Prop where
  own : step.needsOwn = true → c.own i = true
  serving : step.looks = true → m.life i = .serving
  pill : (m.recs i).pill = true → step.owes = true
  left : step = .retire → m.life i = .left

/-- What is known of a record: it is its thread's, until the thread has left. -/
structure RecOk (c : Setup) (m : Mem) (i : Nat) : Prop where
  none : c.own i = false → (m.recs i).lane = -1 ∧ (m.recs i).pill = false
  own : c.own i = true → (m.recs i).lane = c.lane i ∨ (m.recs i).lane = -2 ∧ m.life i = .left

/-- A thread that looks on, and whose record's pill is not set. -/
theorem PointOk.look {m : Mem} {i : Nat} {step : Step} (hown : step.needsOwn = true → c.own i = true)
    (hserving : m.life i = .serving) (hpill : (m.recs i).pill ≠ true) (hleft : step ≠ .retire) :
    PointOk c m i step :=
  ⟨hown, fun _ => hserving, fun h => absurd h hpill, fun h => absurd h hleft⟩

/-- Thread `t` has a channel of its own, on the lane. -/
def Names (c : Setup) (lane t : Nat) : Prop := c.own t = true ∧ c.lane t = lane

instance {lane t : Nat} : Decidable (Names c lane t) :=
  inferInstanceAs (Decidable (c.own t = true ∧ c.lane t = lane))

/-- A waker names threads of its lane that have a channel. -/
def WakeOk (c : Setup) (lane : Nat) : Wake → Prop
  | .lane _ best => ∀ b ∈ best, Names c lane b.1
  | .state t best => Names c lane t ∧ ∀ b ∈ best, Names c lane b.1
  | .seq t best => Names c lane t ∧ ∀ b ∈ best, Names c lane b.1
  | .claim t => Names c lane t
  | .uncount t => Names c lane t
  | .poke t => Names c lane t
  | _ => True

/-- The wake behind a step, if there is one. -/
def Wakes (c : Setup) (nx : Next Pc Res) : Prop :=
  ∀ lane after w, nx.point = some (.wake lane after w) → WakeOk c lane w

theorem wakes_ret {res : Res} : Wakes c (.ret res) := nofun

theorem wakes_noneRegistered {lane : Nat} {after : After} : Wakes c (noneRegistered lane after) := by
  intro lane' after' w h
  cases after with
  | sent => cases h
  | _ =>
    cases h
    trivial

theorem wakes_scan {lane : Nat} {after : After} {t : Nat} {best : Option (Nat × Nat)}
    (hbest : ∀ b ∈ best, Names c lane b.1) : Wakes c (scan c lane after t best) := by
  unfold scan
  split
  · intro lane' after' w h
    cases h
    exact hbest
  · split
    · intro lane' after' w h
      cases h
      exact hbest _ rfl
    · exact wakes_noneRegistered

theorem wakes_wakeOne {lane : Nat} {after : After} : Wakes c (wakeOne c lane after) := wakes_scan nofun

/-- The point behind a step of thread `i`, if it is one of its own. -/
def Keeps (c : Setup) (i : Nat) (r : Mem × Next Pc Res) : Prop :=
  ∀ pc, r.2.point = some pc →
    (∃ step, pc = .thread i step ∧ PointOk c r.1 i step) ∨
      ∃ lane job w, pc = .wake lane (.job i job) w ∧ WakeOk c lane w ∧ ∀ t, w ≠ .uncount t

theorem keeps_ret {i : Nat} {m : Mem} {res : Res} : Keeps c i (m, .ret res) :=
  fun _ h => nomatch h

theorem keeps_goto {i : Nat} {m : Mem} {step : Step} (h : PointOk c m i step) :
    Keeps c i (m, .goto (.thread i step)) := by
  intro pc hpc
  cases hpc
  exact Or.inl ⟨step, rfl, h⟩

theorem keeps_wakeOne {i lane : Nat} {m : Mem} {job : Job} :
    Keeps c i (m, wakeOne c lane (.job i job)) := by
  intro pc hpc
  have hwakes : Wakes c (wakeOne c lane (.job i job)) := wakes_wakeOne
  have hat : ∃ w, pc = .wake lane (.job i job) w ∧ ∀ t, w ≠ .uncount t := by
    unfold wakeOne scan noneRegistered at hpc
    split at hpc
    all_goals
      cases hpc
      exact ⟨_, rfl, nofun⟩
  obtain ⟨w, rfl, hw⟩ := hat
  exact Or.inr ⟨lane, job, w, rfl, hwakes _ _ _ hpc, hw⟩

theorem keeps_hand {i : Nat} {m : Mem} {job : Job} {fromRing : Bool}
    (hpill : (m.recs i).pill ≠ true) : Keeps c i (m, hand c i job fromRing) := by
  unfold hand
  split
  · exact keeps_goto ⟨nofun, nofun, fun h => absurd h hpill, nofun⟩
  · exact keeps_ret

theorem keeps_found {i : Nat} {m : Mem} {look : Look} {job : Job} {fromRing : Bool}
    (hserving : m.life i = .serving) (hpill : (m.recs i).pill ≠ true) :
    Keeps c i (found c m i look job fromRing) := by
  unfold found
  split
  · exact keeps_goto (.look nofun hserving hpill nofun)
  · exact keeps_hand (by rwa [give_recs])

theorem pointOk_park {i : Nat} {m : Mem} (hserving : m.life i = .serving)
    (hpill : (m.recs i).pill ≠ true) : PointOk c m i (park c i) := by
  unfold park
  split
  · exact .look (fun _ => ‹_›) hserving hpill nofun
  · exact .look nofun hserving hpill nofun

theorem keeps_nothing {i : Nat} {m : Mem} {look : Look} {now : Int}
    (hserving : m.life i = .serving) (hpill : (m.recs i).pill ≠ true) :
    Keeps c i (m, nothing c i look now) := by
  unfold nothing
  split
  · exact keeps_ret
  · split
    · split
      · exact keeps_goto (.look nofun hserving hpill nofun)
      · exact keeps_goto (.look nofun hserving hpill nofun)
    · split
      · split
        · exact keeps_goto (.look nofun hserving hpill nofun)
        · exact keeps_goto (pointOk_park hserving hpill)
      · exact keeps_goto (.look nofun hserving hpill nofun)

theorem keeps_unparked {i : Nat} {m : Mem} {got : Own} (hown : c.own i = true)
    (hserving : m.life i = .serving) (hpill : (m.recs i).pill ≠ true) :
    Keeps c i (unparked m i got) := by
  cases got with
  | pill => exact keeps_ret
  | poke => exact keeps_goto (.look (fun _ => hown) hserving hpill nofun)

/-- Behind an access to a ring, from what holds at the points that follow it. -/
theorem keeps_access {i lane : Nat} {m : Mem} {p : Ring.Pc}
    {behind : Next Ring.Pc Ring.Res → Next Pc Res}
    (h : ∀ m' nx, m'.life = m.life → m'.recs = m.recs → Keeps c i (m', behind nx)) :
    Keeps c i (m.access lane p behind) :=
  h _ _ rfl rfl

/-- **The points of a thread follow one another.** -/
theorem keeps_thread {m : Mem} {i : Nat} {step : Step} (hp : PointOk c m i step)
    (hrec : c.own i = false → (m.recs i).pill = false) : Keeps c i (threadStep c m i step) := by
  obtain ⟨hown, hserving, hpill, hleft⟩ := hp
  cases step with
  | enter look =>
    simp only [threadStep]
    split
    · rename_i hlife
      exact keeps_goto ⟨Bool.noConfusion, fun _ => hlife, fun _ => rfl, Step.noConfusion⟩
    · exact keeps_ret
  | pill look =>
    simp only [threadStep]
    split
    · exact keeps_ret
    · -- a record whose pill is set is its thread's own
      rename_i hnot
      refine keeps_goto (.look Bool.noConfusion (hserving rfl) (fun hset => hnot ?_) Step.noConfusion)
      cases howner : c.own i with
      | true => simpa [howner] using hset
      | false =>
        rw [hrec howner] at hset
        cases hset
  | clock look => exact keeps_goto (.look Bool.noConfusion (hserving rfl) (fun h => Bool.noConfusion (hpill h)) Step.noConfusion)
  | pollLoad look now =>
    simp only [threadStep]
    split
    all_goals exact keeps_goto (.look Bool.noConfusion (hserving rfl) (fun h => Bool.noConfusion (hpill h)) Step.noConfusion)
  | pollStore look now =>
    simp only [threadStep]
    split
    · rename_i howner
      exact keeps_goto (.look (fun _ => howner) (hserving rfl) (fun h => Bool.noConfusion (hpill h)) Step.noConfusion)
    · exact keeps_goto (.look Bool.noConfusion (hserving rfl) (fun h => Bool.noConfusion (hpill h)) Step.noConfusion)
  | pollOwn look now =>
    have hno : (m.recs i).pill ≠ true := fun h => Bool.noConfusion (hpill h)
    simp only [threadStep]
    split
    · exact keeps_goto (.look Bool.noConfusion (hserving rfl) hno Step.noConfusion)
    · exact keeps_goto (.look Bool.noConfusion (hserving rfl) (by rwa [setRec_self]) Step.noConfusion)
    · exact keeps_found (hserving rfl) (by rwa [setRec_self])
  | pollSocket look now =>
    have hno : (m.recs i).pill ≠ true := fun h => Bool.noConfusion (hpill h)
    simp only [threadStep]
    split
    · exact keeps_goto (.look Bool.noConfusion (hserving rfl) hno Step.noConfusion)
    · exact keeps_goto (.look Bool.noConfusion (hserving rfl) hno Step.noConfusion)
    · exact keeps_found (hserving rfl) hno
    · exact keeps_found (hserving rfl) hno
  | pollPoke look now =>
    exact keeps_goto (.look Bool.noConfusion (hserving rfl) (fun h => Bool.noConfusion (hpill h)) Step.noConfusion)
  | pop look now pc =>
    refine keeps_access fun m' nx hlife hrecs => ?_
    have hserving' : m'.life i = .serving := by rw [hlife]; exact hserving rfl
    have hno : (m'.recs i).pill ≠ true := by rw [hrecs]; exact fun h => Bool.noConfusion (hpill h)
    unfold popBehind
    split
    · exact keeps_goto (.look Bool.noConfusion hserving' hno Step.noConfusion)
    · split
      · exact keeps_goto (.look Bool.noConfusion hserving' hno Step.noConfusion)
      · exact keeps_hand hno
    · exact keeps_nothing hserving' hno
  | spinUp now spinning =>
    simp only [threadStep]
    split
    all_goals exact keeps_goto (.look Bool.noConfusion (hserving rfl) (fun h => Bool.noConfusion (hpill h)) Step.noConfusion)
  | spinBack spinning =>
    cases spinning with
    | true => exact keeps_goto (.look Bool.noConfusion (hserving rfl) (fun h => Bool.noConfusion (hpill h)) Step.noConfusion)
    | false => exact keeps_goto (pointOk_park (hserving rfl) (fun h => Bool.noConfusion (hpill h)))
  | spinDown found =>
    have hno : (m.recs i).pill ≠ true := fun h => Bool.noConfusion (hpill h)
    cases found with
    | none => exact keeps_goto (pointOk_park (hserving rfl) hno)
    | some job => exact keeps_hand (by rwa [give_recs])
  | chain job pc =>
    refine keeps_access fun m' nx hlife hrecs => ?_
    have hno : (m'.recs i).pill ≠ true := by rw [hrecs]; exact fun h => Bool.noConfusion (hpill h)
    unfold chainBehind
    split
    · exact keeps_goto ⟨Bool.noConfusion, Bool.noConfusion, fun h => absurd h hno, Step.noConfusion⟩
    · exact keeps_ret
    · exact keeps_wakeOne
  | seqAdd =>
    exact keeps_goto (.look (fun _ => hown rfl) (hserving rfl) (fun h => Bool.noConfusion (hpill h)) Step.noConfusion)
  | seqStore seq | announce =>
    refine keeps_goto (.look (fun _ => hown rfl) (hserving rfl) ?_ Step.noConfusion)
    rw [setRec_self]
    exact fun h => Bool.noConfusion (hpill h)
  | count =>
    exact keeps_goto (.look (fun _ => hown rfl) (hserving rfl) (fun h => Bool.noConfusion (hpill h)) Step.noConfusion)
  | recheck pc =>
    refine keeps_access fun m' nx hlife hrecs => ?_
    have hserving' : m'.life i = .serving := by rw [hlife]; exact hserving rfl
    have hno : (m'.recs i).pill ≠ true := by rw [hrecs]; exact fun h => Bool.noConfusion (hpill h)
    unfold recheckBehind
    split
    all_goals exact keeps_goto (.look (fun _ => hown rfl) hserving' hno Step.noConfusion)
  | recheckSocket =>
    simp only [threadStep]
    split
    all_goals
      exact keeps_goto (.look (fun _ => hown rfl) (hserving rfl) (fun h => Bool.noConfusion (hpill h)) Step.noConfusion)
  | recheckPoke | pollReset =>
    exact keeps_goto (.look (fun _ => hown rfl) (hserving rfl) (fun h => Bool.noConfusion (hpill h)) Step.noConfusion)
  | block =>
    simp only [threadStep]
    split
    · exact keeps_goto (.look (fun _ => hown rfl) (hserving rfl) (fun h => Bool.noConfusion (hpill h)) Step.noConfusion)
    · refine keeps_goto (.look (fun _ => hown rfl) (hserving rfl) ?_ Step.noConfusion)
      rw [setRec_self]
      exact fun h => Bool.noConfusion (hpill h)
  | unpark got | leave job =>
    simp only [threadStep]
    split
    · refine keeps_goto (.look (fun _ => hown rfl) (hserving rfl) ?_ Step.noConfusion)
      rw [setRec_self]
      exact fun h => Bool.noConfusion (hpill h)
    · exact keeps_goto (.look (fun _ => hown rfl) (hserving rfl) (fun h => Bool.noConfusion (hpill h)) Step.noConfusion)
  | unparkCount got => exact keeps_unparked (hown rfl) (hserving rfl) (fun h => Bool.noConfusion (hpill h))
  | unparkStore got =>
    refine keeps_unparked (hown rfl) (hserving rfl) ?_
    rw [setRec_self]
    exact fun h => Bool.noConfusion (hpill h)
  | leaveCount job | leaveStore job => exact keeps_ret
  | leaveRecv job =>
    simp only [threadStep]
    split
    · exact keeps_goto (.look (fun _ => hown rfl) (hserving rfl) (fun h => Bool.noConfusion (hpill h)) Step.noConfusion)
    all_goals
      refine keeps_goto (.look (fun _ => hown rfl) (hserving rfl) ?_ Step.noConfusion)
      rw [setRec_self]
      exact fun h => Bool.noConfusion (hpill h)
  | leavePill job => exact keeps_goto ⟨fun _ => hown rfl, fun _ => hserving rfl, fun _ => rfl, Step.noConfusion⟩
  | sockCount | sockPoke =>
    exact keeps_goto (.look Bool.noConfusion (hserving rfl) (fun h => Bool.noConfusion (hpill h)) Step.noConfusion)
  | sockPop pc =>
    refine keeps_access fun m' nx hlife hrecs => ?_
    have hserving' : m'.life i = .serving := by rw [hlife]; exact hserving rfl
    have hno : (m'.recs i).pill ≠ true := by rw [hrecs]; exact fun h => Bool.noConfusion (hpill h)
    unfold sockBehind
    split
    all_goals exact keeps_goto (.look Bool.noConfusion hserving' hno Step.noConfusion)
  | sockRecv =>
    simp only [threadStep]
    split
    all_goals exact keeps_goto (.look Bool.noConfusion (hserving rfl) (fun h => Bool.noConfusion (hpill h)) Step.noConfusion)
  | sockUncount found fromRing =>
    have hno : (m.recs i).pill ≠ true := fun h => Bool.noConfusion (hpill h)
    cases found with
    | none => exact keeps_goto (.look Bool.noConfusion (hserving rfl) hno Step.noConfusion)
    | some job => exact keeps_hand (by rwa [give_recs])
  | unregister =>
    simp only [threadStep]
    split
    · exact keeps_ret
    · exact keeps_goto ⟨Bool.noConfusion, Bool.noConfusion, fun _ => rfl, fun _ => setLife_self ..⟩
  | retire => exact keeps_ret

/-! ## At every instant -/

theorem found_recs (m : Mem) (i : Nat) (look : Look) (job : Job) (fromRing : Bool) :
    (found c m i look job fromRing).1.recs = m.recs := by
  unfold found
  split
  · rfl
  · exact give_recs m i job

theorem unparked_recs (m : Mem) (i : Nat) (got : Own) : (unparked m i got).1.recs = m.recs := by
  cases got <;> rfl

/-- A thread sets its record's lane when it retires, and its pill in `_leave_park`. -/
theorem thread_rec (m : Mem) (i : Nat) (step : Step) :
    (step ≠ .retire → ((threadStep c m i step).1.recs i).lane = (m.recs i).lane) ∧
      ((∀ job, step ≠ .leavePill job) →
        ((threadStep c m i step).1.recs i).pill = (m.recs i).pill) := by
  cases step with
  | retire =>
    refine ⟨fun h => absurd rfl h, fun _ => ?_⟩
    simp only [threadStep]
    split
    · rw [setRec_self]
    · rfl
  | leavePill job =>
    refine ⟨fun _ => ?_, fun h => absurd rfl (h job)⟩
    simp only [threadStep]
    rw [setRec_self]
  | seqStore | announce =>
    simp only [threadStep, setRec_self]
    exact ⟨fun _ => trivial, fun _ => trivial⟩
  | pill look =>
    simp only [threadStep]
    split <;> exact ⟨fun _ => rfl, fun _ => rfl⟩
  | pollOwn look now =>
    simp only [threadStep]
    split
    · exact ⟨fun _ => rfl, fun _ => rfl⟩
    · simp
    · simp [found_recs]
  | pollSocket look now =>
    simp only [threadStep]
    split
    · exact ⟨fun _ => rfl, fun _ => rfl⟩
    · exact ⟨fun _ => rfl, fun _ => rfl⟩
    · simp [found_recs]
    · simp [found_recs]
  | spinDown found =>
    cases found with
    | none => exact ⟨fun _ => rfl, fun _ => rfl⟩
    | some job => simp [threadStep]
  | recheckSocket | sockRecv =>
    simp only [threadStep]
    split <;> exact ⟨fun _ => rfl, fun _ => rfl⟩
  | block | unpark | leave | leaveRecv =>
    simp only [threadStep]
    split <;> simp
  | unparkCount got => simp [threadStep, unparked_recs]
  | unparkStore got => simp [threadStep, unparked_recs]
  | leaveCount job => simp [threadStep]
  | leaveStore job => simp [threadStep]
  | sockUncount found fromRing =>
    cases found with
    | none => exact ⟨fun _ => rfl, fun _ => rfl⟩
    | some job => simp [threadStep]
  | unregister =>
    simp only [threadStep]
    split <;> exact ⟨fun _ => rfl, fun _ => rfl⟩
  | _ => exact ⟨fun _ => rfl, fun _ => rfl⟩

/-- A thread that has left, or is told to stop, is not told to serve again. -/
theorem thread_life (m : Mem) (i : Nat) (step : Step) :
    (threadStep c m i step).1.life i = m.life i ∨
      (threadStep c m i step).1.life i = .stopped ∧ step.looks = true ∨
      (threadStep c m i step).1.life i = .left := by
  have hgive : ∀ (m' : Mem) (job : Job), m'.life i = m.life i → step.looks = true →
      (m'.give i job).life i = m.life i ∨
        (m'.give i job).life i = .stopped ∧ step.looks = true ∨ (m'.give i job).life i = .left := by
    intro m' job hlife hlooks
    cases job with
    | stop => exact Or.inr (Or.inl ⟨setLife_self .., hlooks⟩)
    | _ => exact Or.inl hlife
  have hfound : ∀ (m' : Mem) (look : Look) (job : Job), m'.life i = m.life i → step.looks = true →
      (found c m' i look job false).1.life i = m.life i ∨
        (found c m' i look job false).1.life i = .stopped ∧ step.looks = true ∨
        (found c m' i look job false).1.life i = .left := by
    intro m' look job hlife hlooks
    unfold found
    split
    · exact Or.inl hlife
    · exact hgive m' job hlife hlooks
  cases step with
  | pill look =>
    simp only [threadStep]
    split
    · exact hgive m .stop rfl rfl
    · exact Or.inl rfl
  | pollOwn look now =>
    simp only [threadStep]
    split
    · exact Or.inl rfl
    · exact Or.inl rfl
    · exact hfound _ look .stop rfl rfl
  | pollSocket look now =>
    simp only [threadStep]
    split
    · exact Or.inl rfl
    · exact Or.inl rfl
    · exact hfound _ look .stop rfl rfl
    · exact hfound _ look _ rfl rfl
  | spinDown found =>
    cases found with
    | none => exact Or.inl rfl
    | some job => exact hgive _ job.1 rfl rfl
  | recheckSocket | sockRecv | block | unpark | leave | leaveRecv | retire =>
    simp only [threadStep]
    split <;> exact Or.inl rfl
  | unparkCount got =>
    cases got with
    | pill => exact hgive _ .stop rfl rfl
    | poke => exact Or.inl rfl
  | unparkStore got =>
    cases got with
    | pill => exact hgive _ .stop rfl rfl
    | poke => exact Or.inl rfl
  | leaveCount job => exact hgive _ job rfl rfl
  | leaveStore job => exact hgive _ job rfl rfl
  | sockUncount found fromRing =>
    cases found with
    | none => exact Or.inl rfl
    | some job => exact hgive _ job rfl rfl
  | unregister =>
    simp only [threadStep]
    split
    · exact Or.inl rfl
    · exact Or.inr (Or.inr (setLife_self ..))
  | _ => exact Or.inl rfl

theorem recOk_thread {m : Mem} {i : Nat} {step : Step} (h : RecOk c m i)
    (hp : PointOk c m i step) : RecOk c (threadStep c m i step).1 i := by
  obtain ⟨hlane, hpill⟩ := thread_rec (c := c) m i step
  constructor
  · intro howner
    obtain ⟨hlane', hpill'⟩ := h.none howner
    constructor
    · by_cases hretire : step = .retire
      · subst hretire
        simp only [threadStep, howner]
        exact hlane'
      · rw [hlane hretire, hlane']
    · rw [hpill, hpill']
      rintro job rfl
      rw [hp.own rfl] at howner
      cases howner
  · intro howner
    by_cases hretire : step = .retire
    · subst hretire
      have hleft := hp.left rfl
      exact Or.inr (by simp [threadStep, howner, hleft])
    · rw [hlane hretire]
      refine (h.own howner).imp_right fun hboth => ⟨hboth.1, ?_⟩
      obtain ⟨-, hlife⟩ := hboth
      rcases thread_life (c := c) m i step with hsame | ⟨-, hlooks⟩ | hleft
      · rw [hsame, hlife]
      · rw [hp.serving hlooks] at hlife
        cases hlife
      · exact hleft

theorem RecOk.kept {m m' : Mem} {j : Nat} (h : RecOk c m j) (hk : Kept m m' j) : RecOk c m' j := by
  refine ⟨fun howner => ?_, fun howner => ?_⟩
  · rw [hk.lane, hk.pill]
    exact h.none howner
  · rw [hk.lane, hk.life]
    exact h.own howner

theorem PointOk.kept {m m' : Mem} {j : Nat} {step : Step} (h : PointOk c m j step)
    (hk : Kept m m' j) : PointOk c m' j step := by
  refine ⟨h.own, fun hl => ?_, fun hp => ?_, fun hl => ?_⟩
  · rw [hk.life]
    exact h.serving hl
  · rw [hk.pill] at hp
    exact h.pill hp
  · rw [hk.life]
    exact h.left hl

/-- Whether a point is one of the stop's. -/
def Pc.stops : Pc → Bool
  | .stopping _ => true
  | .stop _ => true
  | _ => false

structure Placed (c : Setup) (s : State) : Prop where
  thread : ∀ t i step, s.pc t = some (.thread i step) →
    t = .thread i ∧ i < c.threads.length ∧ PointOk c s.mem i step
  stop : ∀ t pc, s.pc t = some pc → pc.stops = true → t = .stopper
  record : ∀ i, RecOk c s.mem i

/-- Whether a point is one of a thread of the pool. -/
def Pc.isThread : Pc → Bool
  | .thread _ _ => true
  | _ => false

theorem Pc.ne_thread {pc : Pc} (h : pc.isThread = false) (i : Nat) (step : Step) :
    pc ≠ .thread i step := by
  intro heq
  rw [heq] at h
  cases h

/-- Whether a point is one of a wake. -/
def Pc.isWake : Pc → Bool
  | .wake _ _ _ => true
  | _ => false

theorem Pc.ne_wake {pc : Pc} (h : pc.isWake = false) (lane : Nat) (after : After) (w : Wake) :
    pc ≠ .wake lane after w := by
  intro heq
  rw [heq] at h
  cases h

/-- Behind a step on the loop's side, or in a wake. -/
def Aside (nx : Next Pc Res) : Prop :=
  ∀ pc, nx.point = some pc → pc.stops = false ∧ ∀ i step, pc ≠ .thread i step

theorem aside_ret {res : Res} : Aside (.ret res) := fun _ h => nomatch h

theorem aside_agedNext {lane : Nat} {stalled : Nat → Nat → Int → Bool} :
    Aside (agedNext c lane stalled) := by
  unfold agedNext
  split
  · intro pc hpc
    cases hpc
    exact ⟨rfl, Pc.ne_thread rfl⟩
  · exact aside_ret

theorem aside_afterWake {after : After} : Aside (afterWake c after) := by
  cases after with
  | aged lane stalled => exact aside_agedNext
  | _ => exact aside_ret

theorem aside_noneRegistered {lane : Nat} {after : After} : Aside (noneRegistered lane after) := by
  cases after with
  | sent => exact aside_ret
  | _ =>
    intro pc hpc
    cases hpc
    exact ⟨rfl, Pc.ne_thread rfl⟩

theorem aside_scan {lane : Nat} {after : After} {t : Nat} {best : Option (Nat × Nat)} :
    Aside (scan c lane after t best) := by
  unfold scan
  split
  · intro pc hpc
    cases hpc
    exact ⟨rfl, Pc.ne_thread rfl⟩
  · split
    · intro pc hpc
      cases hpc
      exact ⟨rfl, Pc.ne_thread rfl⟩
    · exact aside_noneRegistered

theorem aside_wakeOne {lane : Nat} {after : After} : Aside (wakeOne c lane after) := aside_scan

theorem aside_wake (m : Mem) (lane : Nat) (after : After) (w : Wake) :
    Aside (wakeStep c m lane after w).2 := by
  have hgoto : ∀ w', Aside (.goto (.wake lane after w')) := by
    intro w' pc hpc
    cases hpc
    exact ⟨rfl, Pc.ne_thread rfl⟩
  cases w with
  | lane | state =>
    simp only [wakeStep]
    split
    · exact hgoto _
    · exact aside_scan
  | seq => exact aside_scan
  | claim =>
    simp only [wakeStep]
    split
    · exact hgoto _
    · exact aside_noneRegistered
  | uncount | parked | count => exact hgoto _
  | poke => exact aside_afterWake
  | wakes =>
    simp only [wakeStep]
    split
    · exact hgoto _
    · exact aside_afterWake
  | pokeSocket =>
    simp only [wakeStep]
    split <;> exact aside_afterWake

/-- A step on the loop's side stays there. -/
theorem aside_advance (m : Mem) (pc : Pc) (hstop : pc.stops = false)
    (hthread : ∀ i step, pc ≠ .thread i step) : Aside (advance c m pc).2 := by
  have hgoto : ∀ pc' : Pc, pc'.stops = false → (∀ i step, pc' ≠ .thread i step) →
      Aside (.goto pc') := by
    intro pc' hs ht pc'' hpc
    cases hpc
    exact ⟨hs, ht⟩
  cases pc with
  | thread i step => exact absurd rfl (hthread i step)
  | stopping | stop => cases hstop
  | wake lane after w => exact aside_wake m lane after w
  | push lane pc =>
    simp only [advance, Mem.access]
    unfold pushBehind
    split
    · exact hgoto _ rfl (Pc.ne_thread rfl)
    · split
      · exact aside_scan
      · exact hgoto _ rfl (Pc.ne_thread rfl)
    · exact aside_ret
  | spinners lane =>
    simp only [advance]
    split
    · exact aside_ret
    · exact hgoto _ rfl (Pc.ne_thread rfl)
  | parked | parkedReg => exact hgoto _ rfl (Pc.ne_thread rfl)
  | threads lane parked =>
    simp only [advance]
    split
    · exact aside_scan
    · exact aside_ret
  | aged stalled =>
    simp only [advance]
    split
    · exact aside_agedNext
    · exact aside_ret
  | pops lane stalled pc =>
    simp only [advance, Mem.access]
    unfold popsBehind
    split
    · exact hgoto _ rfl (Pc.ne_thread rfl)
    · exact hgoto _ rfl (Pc.ne_thread rfl)
    · exact aside_agedNext
  | peek lane stalled pops pc =>
    simp only [advance, Mem.access]
    unfold peekBehind
    split
    · exact hgoto _ rfl (Pc.ne_thread rfl)
    · split
      · exact aside_scan
      · exact aside_agedNext
    · exact aside_agedNext
  | send lane slot =>
    simp only [advance]
    split
    · exact aside_wakeOne
    · exact aside_ret
  | tick ns => exact aside_ret

theorem stops_stopNext {rest : List Nat} {pc : Pc} (h : (stopNext rest).point = some pc) :
    pc.stops = true := by
  cases rest with
  | nil => cases h
  | cons lane rest =>
    cases h
    rfl

theorem stops_putNext {m : Mem} {lane left : Nat} {rest : List Nat} {pc : Pc}
    (h : (putNext m lane rest left).2.point = some pc) : pc.stops = true := by
  cases left with
  | zero => exact stops_stopNext h
  | succ left =>
    cases h
    rfl

theorem stops_stopScan {m : Mem} {lane t pilled : Nat} {rest : List Nat} {pc : Pc}
    (h : (stopScan c m lane rest t pilled).2.point = some pc) : pc.stops = true := by
  unfold stopScan at h
  split at h
  · cases h
    rfl
  · exact stops_putNext h

/-- The stop's steps are followed by the stop's. -/
theorem stops_advance {m : Mem} {pc pc' : Pc} (hstop : pc.stops = true)
    (h : (advance c m pc).2.point = some pc') : pc'.stops = true := by
  cases pc with
  | stopping rest => exact stops_stopNext h
  | stop st =>
    cases st with
    | scan lane rest t pilled =>
      simp only [advance, stopStep] at h
      split at h
      · cases h
        rfl
      · exact stops_stopScan h
    | pill lane rest t pilled => exact stops_stopScan h
    | put lane rest left =>
      simp only [advance, stopStep] at h
      split at h
      · exact stops_putNext h
      · cases h
        rfl
  | _ => cases hstop

theorem stops_ne_thread {pc : Pc} (h : pc.stops = true) (i : Nat) (step : Step) :
    pc ≠ .thread i step := by
  rintro rfl
  cases h

/-- A step keeps `Placed`. -/
theorem Placed.step {s : State} {t : Who} {pc : Pc} {m' : Mem} {nx : Next Pc Res}
    (h : Placed c s) (hpc : s.pc t = some pc) (hadv : advance c s.mem pc = (m', nx)) :
    Placed c (s.move t m' nx.point) := by
  obtain rfl : (advance c s.mem pc).1 = m' := congrArg Prod.fst hadv
  obtain rfl : (advance c s.mem pc).2 = nx := congrArg Prod.snd hadv
  have hother : ∀ j, t ≠ .thread j → Kept s.mem (advance c s.mem pc).1 j := by
    intro j hne
    refine advance_kept s.mem pc j ?_
    rintro step rfl
    exact hne (h.thread t j step hpc).1
  have hrec : ∀ j, RecOk c (advance c s.mem pc).1 j := by
    intro j
    by_cases ht : ∃ step, pc = .thread j step
    · obtain ⟨step, rfl⟩ := ht
      exact recOk_thread (h.record j) (h.thread t j step hpc).2.2
    · exact (h.record j).kept (advance_kept s.mem pc j fun step heq => ht ⟨step, heq⟩)
  refine ⟨?_, ?_, hrec⟩
  · suffices hall : ∀ u p, (s.move t (advance c s.mem pc).1 (advance c s.mem pc).2.point).pc u = some p →
        ∀ i step, p = .thread i step → u = .thread i ∧ i < c.threads.length ∧
          PointOk c (advance c s.mem pc).1 i step from
      fun u i step hp => hall u _ hp i step rfl
    refine Threads.State.forall_move ?_ ?_
    · rintro u p hne hp i step rfl
      obtain ⟨rfl, hlt, hok⟩ := h.thread u i step hp
      exact ⟨rfl, hlt, hok.kept (hother i hne.symm)⟩
    · rintro p hp i step rfl
      by_cases hthread : ∃ j step', pc = .thread j step'
      · obtain ⟨j, step', rfl⟩ := hthread
        obtain ⟨rfl, hlt, hok⟩ := h.thread t j step' hpc
        rcases keeps_thread hok (fun howner => ((h.record j).none howner).2) _ hp with
          ⟨step'', heq, hok'⟩ | ⟨lane, job, w, heq, -⟩
        · cases heq
          exact ⟨rfl, hlt, hok'⟩
        · cases heq
      · have hthread : ∀ j step', pc ≠ .thread j step' := fun j step' heq => hthread ⟨j, step', heq⟩
        cases hstops : pc.stops with
        | true => exact absurd rfl (stops_ne_thread (stops_advance hstops hp) i step)
        | false => exact absurd rfl ((aside_advance s.mem pc hstops hthread _ hp).2 i step)
  · refine Threads.State.forall_move (fun u p _ hp => h.stop u p hp) fun p hp hp' => ?_
    cases hstops : pc.stops with
    | true => exact h.stop t pc hpc hstops
    | false =>
      exfalso
      by_cases hthread : ∃ j step', pc = .thread j step'
      · obtain ⟨j, step', rfl⟩ := hthread
        obtain ⟨rfl, hlt, hok⟩ := h.thread t j step' hpc
        rcases keeps_thread hok (fun howner => ((h.record j).none howner).2) _ hp with
          ⟨step'', rfl, -⟩ | ⟨lane, job, w, rfl, -⟩
        all_goals cases hp'
      · have haside := aside_advance (c := c) s.mem pc hstops (fun j step' heq => hthread ⟨j, step', heq⟩)
        rw [(haside p hp).1] at hp'
        cases hp'

theorem placed_call {s : State} {t : Who} {op : Op} (h : Placed c s) (hmay : may c t op = true) :
    Placed c (s.move t s.mem (some (Pc.start c op))) := by
  have hwho : op.who = t := by
    simp only [may, Bool.and_eq_true, beq_iff_eq] at hmay
    exact hmay.1
  have hlt : ∀ i, t = .thread i → i < c.threads.length := by
    rintro i rfl
    simp only [may, Bool.and_eq_true, decide_eq_true_eq] at hmay
    exact hmay.2
  refine ⟨?_, ?_, h.record⟩
  · suffices hall : ∀ u p, (s.move t s.mem (some (Pc.start c op))).pc u = some p →
        ∀ i step, p = .thread i step → u = .thread i ∧ i < c.threads.length ∧ PointOk c s.mem i step from
      fun u i step hp => hall u _ hp i step rfl
    refine Threads.State.forall_move ?_ ?_
    · rintro u p - hp i step rfl
      exact h.thread u i step hp
    · rintro p hp i step rfl
      subst hwho
      cases op with
      | nextJob j | tryNextJob j | leavePool j =>
        cases hp
        exact ⟨rfl, hlt i rfl, nofun, nofun, fun _ => rfl, nofun⟩
      | _ => cases hp
  · refine Threads.State.forall_move (fun u p _ hp => h.stop u p hp) fun p hp hp' => ?_
    subst hwho
    cases op with
    | stopAndJoin => rfl
    | _ =>
      cases hp
      cases hp'

theorem placed_init : Placed c ⟨Mem.init c, fun _ => none⟩ where
  thread _ _ _ h := nomatch h
  stop _ _ h := nomatch h
  record i := by
    constructor
    · intro howner
      simp [init_rec, howner, Rec.fresh]
    · intro howner
      simp [init_rec, howner]

/-- **Every thread stands where its words say, at every instant.** -/
theorem placed_of_execution (e : Execution c) : ∀ k ≤ e.labels.length, Placed c (e.state k) :=
  Program.invariant_of_roles placed_init (fun _ _ _ h _ hmay => placed_call h hmay)
    (fun _ _ _ _ _ h hpc hadv => h.step hpc hadv) e

end Pool

end Offload

end MojoHttp
