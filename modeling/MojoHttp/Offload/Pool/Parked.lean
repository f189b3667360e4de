import MojoHttp.Offload.Pool.Points

/-!
# The state words

A thread's state word says it is parked from its announcement until somebody moves it off: the
thread itself, or a waker, which then owes it a poke.

* **`Stated`** — the word at every point, and what a woken thread has coming.
* **`stated_of_execution`** — this holds at every instant.
-/

namespace MojoHttp

namespace Offload

open Threads (Next Program)

namespace Pool

variable {c : Setup}

/-- What a thread's state word is where it stands. -/
def Step.StateOk : Step → ThreadState → Prop
  | .count, st => st ≠ .running
  | .recheck _, st => st ≠ .running
  | .recheckSocket, st => st ≠ .running
  | .recheckPoke, st => st ≠ .running
  | .block, st => st ≠ .running
  | .unpark _, st => st ≠ .running
  | .leave _, st => st ≠ .running
  | .unparkStore _, st => st = .woken
  | .leaveRecv _, st => st = .woken
  | .leavePill _, st => st = .woken
  | .leaveStore _, st => st = .woken
  | _, st => st = .running

/-- The same of a thread that is not at such a point, or in no call. -/
def StateAt : Option Pc → ThreadState → Prop
  | some (.thread _ step), st => step.StateOk st
  | _, st => st = .running

/-- The steps of a thread that has read the datagram that ends its park. -/
def Step.fetched : Step → Bool
  | .unpark _ | .unparkStore _ | .leavePill _ | .leaveStore _ => true
  | _ => false

/-- The waker has moved thread `t` off PARKED, and has its poke still to send. -/
def Wake.pokes (t : Nat) : Wake → Prop
  | .uncount t' => t' = t
  | .poke t' => t' = t
  | _ => False

/-- A woken thread has a datagram to read, or has read it, or its waker has still to send it. -/
def Coming (s : State) (i : Nat) : Prop :=
  (∃ step, s.pc (.thread i) = some (.thread i step) ∧ step.fetched = true) ∨
    (s.mem.recs i).channel ≠ [] ∨
    ∃ u lane after w, s.pc u = some (.wake lane after w) ∧ w.pokes i

structure Stated (c : Setup) (s : State) : Prop where
  own : ∀ i, c.own i = true → StateAt (s.pc (.thread i)) (s.mem.recs i).state
  other : ∀ i, c.own i = false → (s.mem.recs i).state = .running
  wakes : ∀ t lane after w, s.pc t = some (.wake lane after w) → WakeOk c lane w
  woken : ∀ i, (s.mem.recs i).state = .woken → Coming s i

/-! ## A thread's own step -/

section

variable {m : Mem} {i : Nat}

theorem stateAt_hand {job : Job} {fromRing : Bool} :
    StateAt (hand c i job fromRing).point .running := by
  unfold hand
  split <;> rfl

theorem stateAt_found {look : Look} {job : Job} {fromRing : Bool} :
    StateAt (found c m i look job fromRing).2.point .running := by
  unfold found
  split
  · rfl
  · exact stateAt_hand

theorem stateOk_park : (park c i).StateOk .running := by
  unfold park
  split <;> rfl

theorem stateAt_nothing {look : Look} {now : Int} :
    StateAt (nothing c i look now).point .running := by
  unfold nothing
  split
  · rfl
  · split
    · split <;> rfl
    · split
      · split
        · rfl
        · exact stateOk_park
      · rfl

theorem stateAt_wakeOne {lane : Nat} {job : Job} :
    StateAt (wakeOne c lane (.job i job)).point .running := by
  unfold wakeOne scan noneRegistered
  split <;> rfl

theorem stateAt_unparked {got : Own} : StateAt (unparked m i got).2.point .running := by
  cases got <;> rfl

/-- **The word behind a thread's own step.** -/
theorem thread_state {step : Step} (h : step.StateOk (m.recs i).state) :
    StateAt (threadStep c m i step).2.point ((threadStep c m i step).1.recs i).state := by
  cases step with
  | enter | pill =>
    simp only [threadStep]
    split <;> exact h
  | pollLoad | pollStore =>
    simp only [threadStep]
    split <;> exact h
  | pollOwn look now =>
    simp only [threadStep]
    split
    · exact h
    · rw [setRec_self]
      exact h
    · rw [found_recs, setRec_self]
      show StateAt _ (m.recs i).state
      rw [show (m.recs i).state = .running from h]
      exact stateAt_found
  | pollSocket look now =>
    simp only [threadStep]
    split
    · exact h
    · exact h
    all_goals
      rw [found_recs]
      show StateAt _ (m.recs i).state
      rw [show (m.recs i).state = .running from h]
      exact stateAt_found
  | pop look now pc =>
    show StateAt (popBehind c i look now _).point (m.recs i).state
    rw [show (m.recs i).state = .running from h]
    unfold popBehind
    split
    · rfl
    · split
      · rfl
      · exact stateAt_hand
    · exact stateAt_nothing
  | spinUp now spinning =>
    simp only [threadStep]
    split <;> exact h
  | spinBack spinning =>
    show StateAt (Next.goto (.thread i (if spinning then Step.spinDown none else park c i))).point
      (m.recs i).state
    rw [show (m.recs i).state = .running from h]
    cases spinning with
    | true => rfl
    | false => exact stateOk_park
  | spinDown found =>
    cases found with
    | none =>
      show (park c i).StateOk (m.recs i).state
      rw [show (m.recs i).state = .running from h]
      exact stateOk_park
    | some job =>
      simp only [threadStep, give_recs]
      show StateAt _ (m.recs i).state
      rw [show (m.recs i).state = .running from h]
      exact stateAt_hand
  | chain job pc =>
    show StateAt (chainBehind c i job _).point (m.recs i).state
    rw [show (m.recs i).state = .running from h]
    unfold chainBehind
    split
    · rfl
    · rfl
    · exact stateAt_wakeOne
  | seqStore seq =>
    simp only [threadStep, setRec_self]
    exact h
  | announce =>
    simp only [threadStep, setRec_self]
    intro hrunning
    cases hrunning
  | recheck pc =>
    show StateAt (recheckBehind i _).point (m.recs i).state
    unfold recheckBehind
    split <;> exact h
  | recheckSocket =>
    simp only [threadStep]
    split <;> exact h
  | block =>
    simp only [threadStep]
    split
    · exact h
    · rw [setRec_self]
      exact h
  | unpark got | leave job =>
    -- off PARKED by itself, or a waker has moved it
    simp only [threadStep]
    split
    · rw [setRec_self]
      rfl
    · rename_i hnot
      show (m.recs i).state = .woken
      cases hst : (m.recs i).state with
      | running => exact absurd hst h
      | parked => exact absurd hst hnot
      | woken => rfl
  | unparkCount got =>
    simp only [threadStep, unparked_recs]
    show StateAt _ (m.recs i).state
    rw [show (m.recs i).state = .running from h]
    exact stateAt_unparked
  | unparkStore got =>
    simp only [threadStep, unparked_recs, setRec_self]
    exact stateAt_unparked
  | leaveCount job =>
    simp only [threadStep, give_recs]
    exact h
  | leaveRecv job =>
    simp only [threadStep]
    split
    · exact h
    all_goals
      rw [setRec_self]
      exact h
  | leavePill job =>
    simp only [threadStep, setRec_self]
    exact h
  | leaveStore job =>
    simp only [threadStep, give_recs, setRec_self]
    rfl
  | sockPop pc =>
    show StateAt (sockBehind i _).point (m.recs i).state
    unfold sockBehind
    split <;> exact h
  | sockRecv =>
    simp only [threadStep]
    split <;> exact h
  | sockUncount found fromRing =>
    cases found with
    | none => exact h
    | some job =>
      simp only [threadStep, give_recs]
      show StateAt _ (m.recs i).state
      rw [show (m.recs i).state = .running from h]
      exact stateAt_hand
  | unregister =>
    simp only [threadStep]
    split <;> exact h
  | retire =>
    simp only [threadStep]
    split
    · rw [setRec_self]
      exact h
    · exact h
  | _ => exact h

/-- A thread does not move itself to WOKEN. -/
theorem thread_word (m : Mem) (i : Nat) (step : Step) :
    ((threadStep c m i step).1.recs i).state = (m.recs i).state ∨
      ((threadStep c m i step).1.recs i).state ≠ .woken := by
  cases step with
  | pill | pollSocket | recheckSocket | sockRecv | unregister =>
    simp only [threadStep]
    split <;> simp [found_recs]
  | pollOwn | block | leaveRecv | retire =>
    simp only [threadStep]
    split <;> simp [found_recs]
  | unpark | leave =>
    simp only [threadStep]
    split <;> simp
  | spinDown found | sockUncount found =>
    cases found with
    | none => exact Or.inl rfl
    | some job => simp [threadStep]
  | unparkCount | leaveCount => simp [threadStep, unparked_recs]
  | announce | unparkStore | leaveStore => simp [threadStep, unparked_recs]
  | seqStore | leavePill => simp [threadStep]
  | _ => exact Or.inl rfl

/-- A thread that is woken has read what ends its park, or its channel is as it was. -/
theorem thread_woken {step : Step} (h : step.StateOk (m.recs i).state)
    (hwoken : ((threadStep c m i step).1.recs i).state = .woken) :
    (m.recs i).state = .woken ∧
      ((∃ step', (threadStep c m i step).2.point = some (.thread i step') ∧ step'.fetched = true) ∨
        (step.fetched = false ∧
          ((threadStep c m i step).1.recs i).channel = (m.recs i).channel)) := by
  have hbefore : (m.recs i).state = .woken := by
    rcases thread_word (c := c) m i step with hsame | hnot
    · rw [← hsame, hwoken]
    · exact absurd hwoken hnot
  refine ⟨hbefore, ?_⟩
  rw [hbefore] at h
  cases step with
  | count | recheck | recheckPoke => exact Or.inr ⟨rfl, rfl⟩
  | recheckSocket =>
    simp only [threadStep]
    split <;> exact Or.inr ⟨rfl, rfl⟩
  | block =>
    simp only [threadStep]
    split
    · exact Or.inr ⟨rfl, rfl⟩
    · exact Or.inl ⟨_, rfl, rfl⟩
  | unpark got =>
    simp only [threadStep, hbefore]
    exact Or.inl ⟨_, rfl, rfl⟩
  | leave job =>
    simp only [threadStep, hbefore]
    exact Or.inr ⟨rfl, rfl⟩
  | leaveRecv job =>
    simp only [threadStep]
    split
    · exact Or.inr ⟨rfl, rfl⟩
    · exact Or.inl ⟨_, rfl, rfl⟩
    · exact Or.inl ⟨_, rfl, rfl⟩
  | leavePill job => exact Or.inl ⟨_, rfl, rfl⟩
  | unparkStore | leaveStore =>
    -- behind its last step the word says RUNNING
    simp [threadStep, unparked_recs] at hwoken
  | _ => cases h

/-- The steps of a thread without a channel leave the records. -/
theorem thread_recs {step : Step} (h : step.needsOwn = false) (hown : c.own i = false) :
    (threadStep c m i step).1.recs = m.recs := by
  cases step with
  | pill look =>
    simp only [threadStep, hown]
    rfl
  | pollSocket | sockRecv | unregister =>
    simp only [threadStep]
    split <;> simp [found_recs, Mem.setLife]
  | spinDown found | sockUncount found =>
    cases found with
    | none => rfl
    | some job => simp [threadStep]
  | retire =>
    simp only [threadStep, hown]
    rfl
  | _ => first | rfl | cases h

end

/-! ## A waker's step, and the stop's -/

/-- What another's step may make of a record's state word and channel. -/
structure Poked (m m' : Mem) (j : Nat) : Prop where
  state : (m'.recs j).state = (m.recs j).state ∨
    (m.recs j).state = .parked ∧ (m'.recs j).state = .woken
  channel : (m.recs j).channel ≠ [] → (m'.recs j).channel ≠ []

theorem Poked.of_eq {m m' : Mem} {j : Nat} (h : m'.recs j = m.recs j) : Poked m m' j :=
  ⟨Or.inl (by rw [h]), by rw [h]; exact id⟩

theorem Poked.update {m m' : Mem} {t j : Nat} {r : Rec} (h : m'.recs = Function.update m.recs t r)
    (hstate : r.state = (m.recs t).state ∨ (m.recs t).state = .parked ∧ r.state = .woken)
    (hchannel : (m.recs t).channel ≠ [] → r.channel ≠ []) : Poked m m' j := by
  rcases eq_or_ne j t with rfl | hne
  · have hrec : m'.recs j = r := by rw [h, Function.update_self]
    exact ⟨by rw [hrec]; exact hstate, by rw [hrec]; exact hchannel⟩
  · exact .of_eq (by rw [h, Function.update_of_ne hne])

/-- **Another's step moves a word from PARKED to WOKEN at most.** -/
theorem advance_poked (m : Mem) (pc : Pc) (j : Nat) (h : ∀ step, pc ≠ .thread j step) :
    Poked m (advance c m pc).1 j := by
  cases pc with
  | thread i step =>
    have hne : j ≠ i := fun heq => h step (heq ▸ rfl)
    exact .of_eq (thread_of_ne (c := c) m step hne).1
  | wake lane after w =>
    cases w with
    | claim t =>
      simp only [advance, wakeStep]
      split
      · rename_i hparked
        exact .update rfl (Or.inr ⟨hparked, rfl⟩) id
      · exact .of_eq rfl
    | poke t => exact .update rfl (Or.inl rfl) fun _ => by simp
    | pokeSocket =>
      simp only [advance, wakeStep]
      split <;> exact .of_eq rfl
    | _ => exact .of_eq rfl
  | stop st =>
    cases st with
    | scan lane rest t pilled =>
      simp only [advance, stopStep]
      split
      · exact .of_eq rfl
      · exact .of_eq (congrFun (stopScan_recs ..) j)
    | pill lane rest t pilled =>
      refine .update (r := { m.recs t with channel := (m.recs t).channel ++ [Own.pill] })
        (stopScan_recs ..) (Or.inl rfl) fun _ => ?_
      simp
    | put lane rest left =>
      simp only [advance, stopStep]
      split
      · exact .of_eq (congrFun (putNext_recs ..) j)
      · exact .of_eq rfl
  | send lane slot =>
    simp only [advance]
    split <;> exact .of_eq rfl
  | _ => exact .of_eq rfl

/-- A waker that claims a thread owes it its poke. -/
theorem claimed_of_woken {m : Mem} {pc : Pc} {j : Nat} (h : ∀ step, pc ≠ .thread j step)
    (hbefore : (m.recs j).state ≠ .woken) (hwoken : ((advance c m pc).1.recs j).state = .woken) :
    ∃ lane after w, (advance c m pc).2.point = some (.wake lane after w) ∧ w.pokes j := by
  cases pc with
  | thread i step =>
    have hne : j ≠ i := fun heq => h step (heq ▸ rfl)
    rw [show (advance c m (.thread i step)).1.recs j = m.recs j from
      (thread_of_ne (c := c) m step hne).1] at hwoken
    exact absurd hwoken hbefore
  | wake lane after w =>
    cases w with
    | claim t =>
      simp only [advance, wakeStep] at hwoken ⊢
      split at hwoken
      · rename_i hparked
        rcases eq_or_ne j t with rfl | hne
        · rw [if_pos hparked]
          exact ⟨lane, after, _, rfl, rfl⟩
        · rw [setRec_of_ne _ _ hne] at hwoken
          exact absurd hwoken hbefore
      · exact absurd hwoken hbefore
    | poke t =>
      rcases eq_or_ne j t with rfl | hne
      · simp only [advance, wakeStep, setRec_self] at hwoken
        exact absurd hwoken hbefore
      · simp only [advance, wakeStep] at hwoken
        rw [setRec_of_ne _ _ hne] at hwoken
        exact absurd hwoken hbefore
    | pokeSocket =>
      simp only [advance, wakeStep] at hwoken
      split at hwoken <;> exact absurd hwoken hbefore
    | _ => exact absurd hwoken hbefore
  | stop st =>
    have hstate : ((advance c m (.stop st)).1.recs j).state = (m.recs j).state := by
      cases st with
      | scan lane rest t pilled =>
        simp only [advance, stopStep]
        split
        · rfl
        · rw [stopScan_recs]
      | pill lane rest t pilled =>
        simp only [advance, stopStep, stopScan_recs]
        rcases eq_or_ne j t with rfl | hne
        · rw [setRec_self]
        · rw [setRec_of_ne _ _ hne]
      | put lane rest left =>
        simp only [advance, stopStep]
        split
        · rw [putNext_recs]
          rfl
        · rfl
    exact absurd (hstate.symm.trans hwoken) hbefore
  | send lane slot =>
    simp only [advance] at hwoken
    split at hwoken <;> exact absurd hwoken hbefore
  | _ => exact absurd hwoken hbefore

/-- A waker that owes a poke still does, or it is on the channel. -/
theorem poked_of_pokes {m : Mem} {lane : Nat} {after : After} {w : Wake} {j : Nat} (h : w.pokes j) :
    (∃ lane' after' w', (advance c m (.wake lane after w)).2.point = some (.wake lane' after' w') ∧
        w'.pokes j) ∨
      ((advance c m (.wake lane after w)).1.recs j).channel ≠ [] := by
  cases w with
  | uncount t =>
    obtain rfl : t = j := h
    exact Or.inl ⟨lane, after, _, rfl, rfl⟩
  | poke t =>
    obtain rfl : t = j := h
    refine Or.inr ?_
    simp only [advance, wakeStep, setRec_self]
    simp
  | _ => cases h

/-! ## Whom a waker names -/

theorem wakes_agedNext {lane : Nat} {stalled : Nat → Nat → Int → Bool} :
    Wakes c (agedNext c lane stalled) := by
  unfold agedNext
  split
  · nofun
  · exact wakes_ret

theorem wakes_afterWake {after : After} : Wakes c (afterWake c after) := by
  cases after with
  | aged lane stalled => exact wakes_agedNext
  | _ => exact wakes_ret

/-- A record under a lane is its thread's. -/
theorem names_of_lane {s : State} (hp : Placed c s) {t lane : Nat}
    (h : (s.mem.recs t).lane = lane) : Names c lane t := by
  have hown : c.own t = true := by
    by_contra hnot
    have hnone := ((hp.record t).none (by simpa using hnot)).1
    omega
  refine ⟨hown, ?_⟩
  rcases (hp.record t).own hown with heq | ⟨heq, -⟩ <;> omega

/-- **A waker names threads of its lane.** -/
theorem wakes_advance {s : State} {t : Who} {pc : Pc} (hp : Placed c s) (hpc : s.pc t = some pc)
    (hwake : ∀ lane after w, pc = .wake lane after w → WakeOk c lane w) :
    Wakes c (advance c s.mem pc).2 := by
  have hgoto : ∀ pc' : Pc, (∀ lane after w, pc' ≠ .wake lane after w) → Wakes c (.goto pc') :=
    fun pc' hne lane after w h => absurd (Option.some.inj h) (hne lane after w)
  cases pc with
  | thread i step =>
    intro lane after w h
    have ⟨_, _, hok⟩ := hp.thread t i step hpc
    rcases keeps_thread hok (fun howner => ((hp.record i).none howner).2) _ h with
      ⟨step', heq, -⟩ | ⟨lane', job, w', heq, hok', -⟩
    · cases heq
    · cases heq
      exact hok'
  | wake lane after w =>
    have hok := hwake lane after w rfl
    cases w with
    | lane t best =>
      simp only [advance, wakeStep]
      split
      · rename_i hlane
        intro lane' after' w' h
        cases h
        exact ⟨names_of_lane hp hlane, hok⟩
      · exact wakes_scan hok
    | state t best =>
      simp only [advance, wakeStep]
      split
      · intro lane' after' w' h
        cases h
        exact hok
      · exact wakes_scan hok.2
    | seq t best =>
      refine wakes_scan fun b hb => ?_
      split at hb
      · cases hb
        exact hok.1
      · exact hok.2 b hb
    | claim t =>
      simp only [advance, wakeStep]
      split
      · intro lane' after' w' h
        cases h
        exact hok
      · exact wakes_noneRegistered
    | uncount t =>
      intro lane' after' w' h
      cases h
      exact hok
    | poke t => exact wakes_afterWake
    | parked | count =>
      intro lane' after' w' h
      cases h
      trivial
    | wakes parked =>
      simp only [advance, wakeStep]
      split
      · intro lane' after' w' h
        cases h
        trivial
      · exact wakes_afterWake
    | pokeSocket =>
      simp only [advance, wakeStep]
      split <;> exact wakes_afterWake
  | push lane pc =>
    simp only [advance, Mem.access]
    unfold pushBehind
    split
    · exact hgoto _ (Pc.ne_wake rfl)
    · split
      · exact wakes_wakeOne
      · exact hgoto _ (Pc.ne_wake rfl)
    · exact wakes_ret
  | spinners lane =>
    simp only [advance]
    split
    · exact wakes_ret
    · exact hgoto _ (Pc.ne_wake rfl)
  | parked | parkedReg => exact hgoto _ (Pc.ne_wake rfl)
  | threads lane parked =>
    simp only [advance]
    split
    · exact wakes_wakeOne
    · exact wakes_ret
  | aged stalled =>
    simp only [advance]
    split
    · exact wakes_agedNext
    · exact wakes_ret
  | pops lane stalled pc =>
    simp only [advance, Mem.access]
    unfold popsBehind
    split
    · exact hgoto _ (Pc.ne_wake rfl)
    · exact hgoto _ (Pc.ne_wake rfl)
    · exact wakes_agedNext
  | peek lane stalled pops pc =>
    simp only [advance, Mem.access]
    unfold peekBehind
    split
    · exact hgoto _ (Pc.ne_wake rfl)
    · split
      · exact wakes_wakeOne
      · exact wakes_agedNext
    · exact wakes_agedNext
  | send lane slot =>
    simp only [advance]
    split
    · exact wakes_wakeOne
    · exact wakes_ret
  | stopping | stop =>
    intro lane after w h
    cases stops_advance (c := c) (m := s.mem) rfl h
  | tick ns => exact wakes_ret

/-! ## At every instant -/

theorem stateAt_iff {p : Option Pc} {st : ThreadState}
    (h : ∀ i step, p ≠ some (.thread i step)) : StateAt p st ↔ st = .running := by
  cases p with
  | none => exact Iff.rfl
  | some pc =>
    cases pc with
    | thread i step => exact absurd rfl (h i step)
    | _ => exact Iff.rfl

/-- A waker moves a word where it may stand at WOKEN as well. -/
theorem StateAt.poked {p : Option Pc} {st st' : ThreadState} (h : StateAt p st)
    (hst : st' = st ∨ st = .parked ∧ st' = .woken) : StateAt p st' := by
  rcases hst with rfl | ⟨rfl, rfl⟩
  · exact h
  · by_cases hthread : ∃ i step, p = some (.thread i step)
    · obtain ⟨i, step, rfl⟩ := hthread
      cases step
      all_goals first
        | exact fun heq => nomatch heq
        | cases h
    · cases (stateAt_iff fun i step heq => hthread ⟨i, step, heq⟩).mp h

/-- **A step keeps the words.** -/
theorem Stated.step {s : State} {t : Who} {pc : Pc} {m' : Mem} {nx : Next Pc Res}
    (h : Stated c s) (hp : Placed c s) (hpc : s.pc t = some pc)
    (hadv : advance c s.mem pc = (m', nx)) : Stated c (s.move t m' nx.point) := by
  obtain rfl : (advance c s.mem pc).1 = m' := congrArg Prod.fst hadv
  obtain rfl : (advance c s.mem pc).2 = nx := congrArg Prod.snd hadv
  have hmine : ∀ i step, pc = .thread i step → t = .thread i ∧ PointOk c s.mem i step := by
    rintro i step rfl
    have ⟨hwho, _, hok⟩ := hp.thread t i step hpc
    exact ⟨hwho, hok⟩
  have hother : ∀ i, (∀ step, pc ≠ .thread i step) → Poked s.mem (advance c s.mem pc).1 i :=
    fun i hne => advance_poked s.mem pc i hne
  refine ⟨fun i hown => ?_, fun i hown => ?_, fun u lane after w hat => ?_, fun i hwoken => ?_⟩
  · by_cases hthread : ∃ step, pc = .thread i step
    · obtain ⟨step, rfl⟩ := hthread
      obtain ⟨rfl, -⟩ := hmine i step rfl
      have hat := h.own i hown
      rw [hpc] at hat
      rw [s.move_pc_self]
      exact thread_state hat
    · have hne : ∀ step, pc ≠ .thread i step := fun step heq => hthread ⟨step, heq⟩
      have hpoked := hother i hne
      rcases eq_or_ne (.thread i : Who) t with rfl | hnet
      · -- in a wake of its own, where its word says RUNNING
        have hnot : ∀ j step, pc ≠ .thread j step := by
          rintro j step rfl
          have ⟨heq, _⟩ := hmine j step rfl
          cases heq
          exact hne step rfl
        have hstop : pc.stops = false := by
          rw [Bool.eq_false_iff]
          intro hs
          cases hp.stop _ pc hpc hs
        have hrunning : (s.mem.recs i).state = .running := by
          have hat := h.own i hown
          rw [hpc] at hat
          exact (stateAt_iff fun j step heq => hnot j step (Option.some.inj heq)).mp hat
        rw [s.move_pc_self]
        refine (stateAt_iff fun j step heq => ?_).mpr ?_
        · exact (aside_advance s.mem pc hstop hnot _ heq).2 j step rfl
        · rcases hpoked.state with hsame | ⟨hparked, -⟩
          · exact hsame.trans hrunning
          · rw [hrunning] at hparked
            cases hparked
      · rw [s.move_pc_of_ne _ _ hnet]
        exact (h.own i hown).poked hpoked.state
  · by_cases hthread : ∃ step, pc = .thread i step
    · obtain ⟨step, rfl⟩ := hthread
      obtain ⟨-, hok⟩ := hmine i step rfl
      have hneeds : step.needsOwn = false := by
        rw [Bool.eq_false_iff]
        intro hneeds
        rw [hok.own hneeds] at hown
        cases hown
      show ((threadStep c s.mem i step).1.recs i).state = .running
      rw [thread_recs hneeds hown]
      exact h.other i hown
    · rcases (hother i fun step heq => hthread ⟨step, heq⟩).state with hsame | ⟨hparked, -⟩
      · exact hsame.trans (h.other i hown)
      · rw [h.other i hown] at hparked
        cases hparked
  · rcases eq_or_ne u t with rfl | hne
    · rw [s.move_pc_self] at hat
      refine wakes_advance hp hpc (fun lane after w heq => ?_) lane after w hat
      exact h.wakes u lane after w (heq ▸ hpc)
    · rw [s.move_pc_of_ne _ _ hne] at hat
      exact h.wakes u lane after w hat
  · by_cases hthread : ∃ step, pc = .thread i step
    · obtain ⟨step, rfl⟩ := hthread
      obtain ⟨rfl, hok⟩ := hmine i step rfl
      cases hown : c.own i with
      | false =>
        -- its word says RUNNING at all times
        have hneeds : step.needsOwn = false := by
          rw [Bool.eq_false_iff]
          intro hneeds
          rw [hok.own hneeds] at hown
          cases hown
        change ((threadStep c s.mem i step).1.recs i).state = .woken at hwoken
        rw [thread_recs hneeds hown, h.other i hown] at hwoken
        cases hwoken
      | true =>
        have hat := h.own i hown
        rw [hpc] at hat
        have ⟨hbefore, hfetch⟩ := thread_woken (c := c) hat hwoken
        rcases hfetch with ⟨step', hpoint, hfetched⟩ | ⟨hnot, hchannel⟩
        · exact Or.inl ⟨step', (s.move_pc_self _ _ _).trans hpoint, hfetched⟩
        · rcases h.woken i hbefore with ⟨step', hpc', hfetched⟩ | hsome | ⟨u, lane, after, w, hu, hw⟩
          · rw [hpc] at hpc'
            cases hpc'
            rw [hnot] at hfetched
            cases hfetched
          · exact Or.inr (Or.inl fun hnil => hsome (hchannel.symm.trans hnil))
          · refine Or.inr (Or.inr ⟨u, lane, after, w, ?_, hw⟩)
            rw [s.move_pc_of_ne]
            · exact hu
            · rintro rfl
              rw [hpc] at hu
              cases hu
    · have hne : ∀ step, pc ≠ .thread i step := fun step heq => hthread ⟨step, heq⟩
      rcases Classical.em ((s.mem.recs i).state = .woken) with hbefore | hnot
      · rcases h.woken i hbefore with ⟨step', hpc', hfetched⟩ | hsome | ⟨u, lane, after, w, hu, hw⟩
        · refine Or.inl ⟨step', ?_, hfetched⟩
          rw [s.move_pc_of_ne]
          · exact hpc'
          · rintro rfl
            rw [hpc] at hpc'
            exact hne step' (Option.some.inj hpc')
        · exact Or.inr (Or.inl ((hother i hne).channel hsome))
        · rcases eq_or_ne u t with rfl | hnet
          · rw [hpc] at hu
            cases hu
            rcases @poked_of_pokes c s.mem lane after w i hw with
              ⟨lane', after', w', hpoint, hw'⟩ | hsome
            · exact Or.inr (Or.inr ⟨u, lane', after', w', (s.move_pc_self _ _ _).trans hpoint, hw'⟩)
            · exact Or.inr (Or.inl hsome)
          · exact Or.inr (Or.inr ⟨u, lane, after, w, (s.move_pc_of_ne _ _ hnet).trans hu, hw⟩)
      · have ⟨lane, after, w, hpoint, hw⟩ := claimed_of_woken (c := c) hne hnot hwoken
        exact Or.inr (Or.inr ⟨t, lane, after, w, (s.move_pc_self _ _ _).trans hpoint, hw⟩)

/-- A thread that is in no call starts one. -/
theorem Stated.call {s : State} {t : Who} {op : Op} (h : Stated c s) (hpc : s.pc t = none) :
    Stated c (s.move t s.mem (some (Pc.start c op))) := by
  refine ⟨fun i hown => ?_, h.other, fun u lane after w hat => ?_, fun i hwoken => ?_⟩
  · rcases eq_or_ne (.thread i : Who) t with rfl | hne
    · have hat := h.own i hown
      rw [hpc] at hat
      rw [s.move_pc_self]
      cases op <;> exact hat
    · rw [s.move_pc_of_ne _ _ hne]
      exact h.own i hown
  · rcases eq_or_ne u t with rfl | hne
    · rw [s.move_pc_self] at hat
      cases op <;> cases hat
    · rw [s.move_pc_of_ne _ _ hne] at hat
      exact h.wakes u lane after w hat
  · have hkeep : ∀ u pc, s.pc u = some pc → (s.move t s.mem (some (Pc.start c op))).pc u = some pc := by
      intro u pc hu
      rw [s.move_pc_of_ne]
      · exact hu
      · rintro rfl
        rw [hpc] at hu
        cases hu
    rcases h.woken i hwoken with ⟨step, hat, hfetched⟩ | hsome | ⟨u, lane, after, w, hu, hw⟩
    · exact Or.inl ⟨step, hkeep _ _ hat, hfetched⟩
    · exact Or.inr (Or.inl hsome)
    · exact Or.inr (Or.inr ⟨u, lane, after, w, hkeep _ _ hu, hw⟩)

theorem stated_init : Stated c ⟨Mem.init c, fun _ => none⟩ := by
  have hstate : ∀ i, ((Mem.init c).recs i).state = .running := by
    intro i
    rw [init_rec]
    split <;> rfl
  refine ⟨fun i _ => hstate i, fun i _ => hstate i,
    fun _ _ _ _ hat => absurd hat.symm (Option.some_ne_none _), fun i hwoken => ?_⟩
  rw [hstate i] at hwoken
  cases hwoken

/-- **The state words, at every instant.** -/
theorem stated_of_execution (e : Execution c) : ∀ k ≤ e.labels.length, Stated c (e.state k) := by
  have hplaced := placed_of_execution e
  refine Program.invariant_of_run e stated_init (fun s t op h hpc _ => h.call hpc) ?_
  intro k t act pc m' nx hl h hpc hadv
  have hk : k < e.labels.length := LabelledSystem.Execution.lt_length hl
  exact h.step (hplaced k hk.le) hpc hadv

end Pool

end Offload

end MojoHttp
