import MojoHttp.Offload.Pool.Points
import Mathlib.Data.Finset.Card

/-!
# The pills of a lane

A thread takes a pill off its own channel or off its lane's socket, and both are read by the threads
that have a channel. What a step does to the pills, and to who has still to be told.

* **`Reached`** — a pill sent to a thread by name is on its way to the thread's answer.
* **`Reached.step`** — it stays so, whoever steps.
* **`wanting`** — the threads of a lane that a pill on the lane's socket has still to tell.
* **`wanting_step`** — a step adds none; a thread without a channel that takes a pill is one less.
-/

namespace MojoHttp

namespace Offload

open Threads (Next Program)

namespace Pool

variable {c : Setup}

/-- The steps that read the lane's socket. -/
def Step.readsLane : Step → Bool
  | .pollSocket _ _ | .recheckSocket | .sockRecv => true
  | _ => false

/-- The steps of a thread that has taken its pill off its own channel, or has one in its record's
word to write. -/
def Step.holdsOwn : Step → Bool
  | .spinDown (some (.stop, _)) | .unpark .pill | .unparkCount .pill | .unparkStore .pill => true
  | .leavePill _ => true
  | _ => false

/-- The steps of a thread without a channel that has taken a pill off its lane's socket. -/
def Step.holdsLane : Step → Bool
  | .spinDown (some (.stop, _)) | .sockUncount (some .stop) _ => true
  | _ => false

/-- The thread is about to read a pill off its lane's socket. -/
def TakesPill (c : Setup) (m : Mem) (i : Nat) (step : Step) : Prop :=
  step.readsLane = true ∧ (m.lanes (c.lane i)).socket.head? = some .pill

/-- The pills on a lane's socket. -/
def pillsOn (m : Mem) (lane : Nat) : Nat := (m.lanes lane).socket.count .pill

/-! ## Pills sent by name -/

/-- A pill sent to thread `i` by name waits on its channel or in its record, or the thread has taken
it, or it looks for no other job. -/
def Reached (s : State) (i : Nat) : Prop :=
  .pill ∈ (s.mem.recs i).channel ∨ (s.mem.recs i).pill = true ∨ s.mem.life i ≠ .serving ∨
    ∃ step, s.pc (.thread i) = some (.thread i step) ∧ step.holdsOwn = true

theorem not_serving_thread {m : Mem} {i : Nat} {step : Step} (h : m.life i ≠ .serving)
    (hp : PointOk c m i step) : (threadStep c m i step).1.life i ≠ .serving := by
  rcases thread_life (c := c) m i step with hsame | ⟨-, hlooks⟩ | hleft
  · rwa [hsame]
  · exact absurd (hp.serving hlooks) h
  · rw [hleft]
    nofun

/-- The thread answers its pill, or is about to. -/
def Answers (i : Nat) (r : Mem × Next Pc Res) : Prop :=
  r.1.life i ≠ .serving ∨ ∃ step, r.2.point = some (.thread i step) ∧ step.holdsOwn = true

theorem answers_found {m : Mem} {i : Nat} {look : Look} {fromRing : Bool} :
    Answers i (found c m i look .stop fromRing) := by
  unfold found
  split
  · exact Or.inr ⟨_, rfl, rfl⟩
  · refine Or.inl ?_
    show (m.setLife i .stopped).life i ≠ .serving
    rw [setLife_self]
    nofun

theorem answers_goto {m : Mem} {i : Nat} {step : Step} (h : step.holdsOwn = true) :
    Answers i (m, .goto (.thread i step)) := Or.inr ⟨step, rfl, h⟩

/-- **A thread reads its channel from the front**: it is left as it was, or without its first
datagram, and a pill that was read is about to be answered. -/
theorem thread_channel (m : Mem) (i : Nat) (step : Step) :
    ((threadStep c m i step).1.recs i).channel = (m.recs i).channel ∨
      ∃ got, (m.recs i).channel = got :: ((threadStep c m i step).1.recs i).channel ∧
        (got = .pill → Answers i (threadStep c m i step)) := by
  cases step with
  | pollOwn look now =>
    simp only [threadStep]
    split
    · exact Or.inl rfl
    · rename_i rest hchannel
      exact Or.inr ⟨.poke, by rw [setRec_self, hchannel], Own.noConfusion⟩
    · rename_i rest hchannel
      refine Or.inr ⟨.pill, ?_, fun _ => answers_found⟩
      rw [found_recs, setRec_self, hchannel]
  | block =>
    simp only [threadStep]
    split
    · exact Or.inl rfl
    · rename_i got rest hchannel
      refine Or.inr ⟨got, by rw [setRec_self, hchannel], ?_⟩
      rintro rfl
      exact answers_goto rfl
  | leaveRecv job =>
    simp only [threadStep]
    split
    · exact Or.inl rfl
    · rename_i rest hchannel
      exact Or.inr ⟨.poke, by rw [setRec_self, hchannel], Own.noConfusion⟩
    · rename_i rest hchannel
      exact Or.inr ⟨.pill, by rw [setRec_self, hchannel], fun _ => answers_goto rfl⟩
  | pill look =>
    simp only [threadStep]
    split <;> exact Or.inl rfl
  | pollSocket look now =>
    simp only [threadStep]
    split
    · exact Or.inl rfl
    · exact Or.inl rfl
    · exact Or.inl (by rw [found_recs]; rfl)
    · exact Or.inl (by rw [found_recs]; rfl)
  | spinDown found =>
    cases found with
    | none => exact Or.inl rfl
    | some job => exact Or.inl (by simp [threadStep])
  | recheckSocket | sockRecv =>
    simp only [threadStep]
    split <;> exact Or.inl rfl
  | unpark | leave =>
    simp only [threadStep]
    split
    · exact Or.inl (by rw [setRec_self])
    · exact Or.inl rfl
  | seqStore | announce | leavePill => exact Or.inl (by simp [threadStep])
  | unparkCount | unparkStore => exact Or.inl (by simp [threadStep, unparked_recs])
  | leaveCount | leaveStore => exact Or.inl (by simp [threadStep])
  | sockUncount found fromRing =>
    cases found with
    | none => exact Or.inl rfl
    | some job => exact Or.inl (by simp [threadStep])
  | unregister =>
    simp only [threadStep]
    split <;> exact Or.inl rfl
  | retire =>
    simp only [threadStep]
    split
    · exact Or.inl (by rw [setRec_self])
    · exact Or.inl rfl
  | _ => exact Or.inl rfl

/-- A thread that has taken its pill answers it, or writes it in its record. -/
theorem thread_holdsOwn (m : Mem) (i : Nat) (step : Step) (h : step.holdsOwn = true) :
    ((threadStep c m i step).1.recs i).pill = true ∨ Answers i (threadStep c m i step) := by
  have hgive : ∀ (m' : Mem) (nx : Next Pc Res), Answers i (m'.give i .stop, nx) := by
    intro m' nx
    refine Or.inl ?_
    show (m'.setLife i .stopped).life i ≠ .serving
    rw [setLife_self]
    nofun
  cases step with
  | spinDown found =>
    match found, h with
    | some (.stop, fromRing), _ => exact Or.inr (hgive _ _)
  | unpark got =>
    cases got with
    | poke => cases h
    | pill =>
      simp only [threadStep]
      split
      · exact Or.inr (answers_goto rfl)
      · exact Or.inr (answers_goto rfl)
  | unparkCount got | unparkStore got =>
    cases got with
    | poke => cases h
    | pill => exact Or.inr (hgive _ _)
  | leavePill job => exact Or.inl (by simp [threadStep])
  | _ => cases h

/-- **A pill sent by name is not lost**: whoever steps. -/
theorem Reached.step {s : State} {t : Who} {pc : Pc} {m' : Mem} {nx : Next Pc Res} {i : Nat}
    (h : Reached s i) (hp : Placed c s) (hpc : s.pc t = some pc)
    (hadv : advance c s.mem pc = (m', nx)) : Reached (s.move t m' nx.point) i := by
  obtain rfl : (advance c s.mem pc).1 = m' := congrArg Prod.fst hadv
  obtain rfl : (advance c s.mem pc).2 = nx := congrArg Prod.snd hadv
  have hanswers : ∀ step, pc = .thread i step → Answers i (threadStep c s.mem i step) →
      Reached (s.move t (advance c s.mem pc).1 (advance c s.mem pc).2.point) i := by
    rintro step rfl (hlife | ⟨step', hpoint, hholds⟩)
    · exact Or.inr (Or.inr (Or.inl hlife))
    · obtain rfl := (hp.thread t i step hpc).1
      exact Or.inr (Or.inr (Or.inr ⟨step', (s.move_pc_self _ _ _).trans hpoint, hholds⟩))
  by_cases hown : ∃ step, pc = .thread i step
  · obtain ⟨step, rfl⟩ := hown
    obtain ⟨rfl, -, hok⟩ := hp.thread t i step hpc
    rcases h with hchannel | hpill | hlife | ⟨step', hpc', hholds⟩
    · rcases thread_channel (c := c) s.mem i step with hsame | ⟨got, hgot, hanswer⟩
      · refine Or.inl ?_
        show .pill ∈ ((threadStep c s.mem i step).1.recs i).channel
        rwa [hsame]
      · rw [hgot] at hchannel
        rcases List.mem_cons.mp hchannel with heq | hrest
        · exact hanswers step rfl (hanswer heq.symm)
        · exact Or.inl hrest
    · refine Or.inr (Or.inl ?_)
      show ((threadStep c s.mem i step).1.recs i).pill = true
      rw [(thread_rec (c := c) s.mem i step).2, hpill]
      rintro job rfl
      cases hok.pill hpill
    · exact Or.inr (Or.inr (Or.inl (not_serving_thread hlife hok)))
    · rw [hpc] at hpc'
      cases hpc'
      rcases thread_holdsOwn (c := c) s.mem i step hholds with hpill | hanswer
      · exact Or.inr (Or.inl hpill)
      · exact hanswers step rfl hanswer
  · -- another's step
    have hkept : Kept s.mem (advance c s.mem pc).1 i :=
      advance_kept s.mem pc i fun step heq => hown ⟨step, heq⟩
    rcases h with hchannel | hpill | hlife | ⟨step', hpc', hholds⟩
    · exact Or.inl (hkept.channel.subset hchannel)
    · exact Or.inr (Or.inl (hkept.pill.trans hpill))
    · exact Or.inr (Or.inr (Or.inl fun heq => hlife (hkept.life ▸ heq)))
    · have hne : (.thread i : Who) ≠ t := by
        rintro rfl
        rw [hpc] at hpc'
        exact hown ⟨step', Option.some.inj hpc'⟩
      exact Or.inr (Or.inr (Or.inr ⟨step', (s.move_pc_of_ne _ _ hne).trans hpc', hholds⟩))

/-! ## The lane's pills, and who wants one -/

/-- The thread has taken a pill off its lane's socket. -/
def holdsLane (s : State) (i : Nat) : Bool :=
  match s.pc (.thread i) with
  | some (.thread _ step) => step.holdsLane
  | _ => false

/-- Thread `i` of the lane has no channel, and no pill has told it yet. -/
def wanted (c : Setup) (s : State) (lane i : Nat) : Bool :=
  c.lane i == lane && !c.own i && decide (s.mem.life i = .serving) && !holdsLane s i

/-- The threads of a lane that a pill on its socket has still to tell. -/
def wanting (c : Setup) (s : State) (lane : Nat) : Nat :=
  ((Finset.range c.threads.length).filter fun i => wanted c s lane i = true).card

theorem wanted_iff {s : State} {lane i : Nat} : wanted c s lane i = true ↔
    c.lane i = lane ∧ c.own i = false ∧ s.mem.life i = .serving ∧ holdsLane s i = false := by
  simp [wanted, and_assoc]

theorem holdsLane_of_pc {s : State} {i : Nat} {step : Step}
    (h : s.pc (.thread i) = some (.thread i step)) : holdsLane s i = step.holdsLane := by
  unfold holdsLane
  rw [h]

theorem wanting_le {s s' : State} {lane : Nat}
    (h : ∀ i, wanted c s' lane i = true → wanted c s lane i = true) :
    wanting c s' lane ≤ wanting c s lane :=
  Finset.card_le_card (Finset.monotone_filter_right _ fun i _ hi => h i hi)

/-- One that was told wants no pill any more. -/
theorem wanting_lt {s s' : State} {lane i : Nat}
    (h : ∀ i, wanted c s' lane i = true → wanted c s lane i = true) (hi : i < c.threads.length)
    (hbefore : wanted c s lane i = true) (hbehind : wanted c s' lane i = false) :
    wanting c s' lane < wanting c s lane := by
  refine Finset.card_lt_card ?_
  rw [Finset.ssubset_iff_of_subset (Finset.monotone_filter_right _ fun i _ hi => h i hi)]
  refine ⟨i, Finset.mem_filter.mpr ⟨Finset.mem_range.mpr hi, hbefore⟩, fun hmem => ?_⟩
  rw [(Finset.mem_filter.mp hmem).2] at hbehind
  cases hbehind

theorem wanting_pos {s : State} {i : Nat} (hi : i < c.threads.length)
    (h : wanted c s (c.lane i) i = true) : 0 < wanting c s (c.lane i) :=
  Finset.card_pos.mpr ⟨i, Finset.mem_filter.mpr ⟨Finset.mem_range.mpr hi, h⟩⟩

/-- A thread told by its lane's socket answers. -/
theorem thread_holdsLane (m : Mem) (i : Nat) (step : Step) (h : step.holdsLane = true) :
    (threadStep c m i step).1.life i ≠ .serving := by
  have hgive : ∀ m' : Mem, (m'.give i .stop).life i ≠ .serving := by
    intro m'
    show (m'.setLife i .stopped).life i ≠ .serving
    rw [setLife_self]
    nofun
  cases step with
  | spinDown found =>
    match found, h with
    | some (.stop, fromRing), _ => exact hgive _
  | sockUncount found fromRing =>
    match found, h with
    | some .stop, _ => exact hgive _
  | _ => cases h

/-- **No thread is to be told again**: whoever steps. -/
theorem wanted_step {s : State} {t : Who} {pc : Pc} {m' : Mem} {nx : Next Pc Res} {lane i : Nat}
    (hp : Placed c s) (hpc : s.pc t = some pc) (hadv : advance c s.mem pc = (m', nx))
    (h : wanted c (s.move t m' nx.point) lane i = true) : wanted c s lane i = true := by
  obtain rfl : (advance c s.mem pc).1 = m' := congrArg Prod.fst hadv
  obtain ⟨hlane, howner, hlife, hholds⟩ := wanted_iff.mp h
  rw [Threads.State.move_mem] at hlife
  by_cases hown : ∃ step, pc = .thread i step
  · obtain ⟨step, rfl⟩ := hown
    obtain ⟨rfl, -, hok⟩ := hp.thread t i step hpc
    refine wanted_iff.mpr ⟨hlane, howner, ?_, ?_⟩
    · by_contra hnot
      exact not_serving_thread hnot hok hlife
    · rw [holdsLane_of_pc hpc]
      cases htold : step.holdsLane with
      | false => rfl
      | true => exact absurd hlife (thread_holdsLane s.mem i step htold)
  · have hother : ∀ step, pc ≠ .thread i step := fun step heq => hown ⟨step, heq⟩
    have hkept : Kept s.mem (advance c s.mem pc).1 i := advance_kept s.mem pc i hother
    refine wanted_iff.mpr ⟨hlane, howner, hkept.life.symm.trans hlife, ?_⟩
    rcases eq_or_ne (.thread i : Who) t with rfl | hne
    · -- in a wake of its own
      unfold holdsLane
      rw [hpc]
      cases pc with
      | thread j step =>
        obtain ⟨heq, -, -⟩ := hp.thread _ j step hpc
        cases heq
        exact absurd rfl (hother step)
      | _ => rfl
    · unfold holdsLane at hholds ⊢
      rwa [s.move_pc_of_ne _ _ hne] at hholds

/-! ### What a step does to the pills of the lanes -/

theorem pillsOn_congr {m m' : Mem} (h : m'.lanes = m.lanes) (lane : Nat) :
    pillsOn m' lane = pillsOn m lane := by
  unfold pillsOn
  rw [h]

/-- One lane changed, and as many pills on it. -/
theorem pillsOn_update {m m' : Mem} {lane lane' : Nat} {l : Lane}
    (h : m'.lanes = Function.update m.lanes lane l)
    (hl : l.socket.count .pill = (m.lanes lane).socket.count .pill) :
    pillsOn m' lane' = pillsOn m lane' := by
  unfold pillsOn
  rw [h]
  rcases eq_or_ne lane' lane with rfl | hne
  · rw [Function.update_self, hl]
  · rw [Function.update_of_ne hne]

theorem pillsOn_found (m : Mem) (i : Nat) (look : Look) (job : Job) (fromRing : Bool) (lane : Nat) :
    pillsOn (found c m i look job fromRing).1 lane = pillsOn m lane := by
  unfold found
  split
  · rfl
  · exact pillsOn_congr (give_lanes ..) lane

theorem unparked_lanes (m : Mem) (i : Nat) (got : Own) : (unparked m i got).1.lanes = m.lanes := by
  cases got <;> rfl

theorem pillsOn_access (m : Mem) (lane : Nat) (pc : Ring.Pc)
    (behind : Next Ring.Pc Ring.Res → Next Pc Res) (lane' : Nat) :
    pillsOn (m.access lane pc behind).1 lane' = pillsOn m lane' := pillsOn_update rfl rfl

/-- A datagram other than a pill was read. -/
theorem pillsOn_read {m : Mem} {lane : Nat} {got : Datagram} {rest : List Datagram}
    (h : (m.lanes lane).socket = got :: rest) (hgot : got ≠ .pill) (lane' : Nat) :
    pillsOn (m.setLane lane fun l => { l with socket := rest }) lane' = pillsOn m lane' := by
  refine pillsOn_update rfl ?_
  rw [h, List.count_cons_of_ne hgot]

/-- A pill was read. -/
theorem pillsOn_taken {m : Mem} {lane : Nat} {rest : List Datagram}
    (h : (m.lanes lane).socket = .pill :: rest) :
    pillsOn (m.setLane lane fun l => { l with socket := rest }) lane + 1 = pillsOn m lane := by
  unfold pillsOn
  rw [setLane_self, h, List.count_cons_self]

/-- A thread that reads no pill off its lane's socket leaves the pills there. -/
theorem thread_pills {m : Mem} {i : Nat} {step : Step} (h : ¬ TakesPill c m i step) (lane : Nat) :
    pillsOn (threadStep c m i step).1 lane = pillsOn m lane := by
  have hread : step.readsLane = true → ∀ rest, (m.lanes (c.lane i)).socket ≠ .pill :: rest :=
    fun hr rest hs => h ⟨hr, by rw [hs]; rfl⟩
  cases step with
  | pill look =>
    simp only [threadStep]
    split
    · exact pillsOn_congr (give_lanes m i .stop) lane
    · rfl
  | pollOwn look now =>
    simp only [threadStep]
    split
    · rfl
    · rfl
    · rw [pillsOn_found]
      rfl
  | pollSocket look now =>
    simp only [threadStep]
    split
    · rfl
    · rename_i hsock
      exact pillsOn_read hsock Datagram.noConfusion lane
    · rename_i hsock
      exact absurd hsock (hread rfl _)
    · rename_i hsock
      rw [pillsOn_found]
      exact pillsOn_read hsock Datagram.noConfusion lane
  | recheckSocket | sockRecv =>
    simp only [threadStep]
    split
    · rfl
    · rename_i hsock
      exact pillsOn_read hsock Datagram.noConfusion lane
    · rename_i hsock
      exact absurd hsock (hread rfl _)
    · rename_i hsock
      exact pillsOn_read hsock Datagram.noConfusion lane
  | pop | chain | recheck | sockPop => exact pillsOn_access ..
  | pollStore | pollPoke | spinUp | spinBack | count | recheckPoke | pollReset | sockCount
  | sockPoke => exact pillsOn_update rfl rfl
  | spinDown found =>
    cases found with
    | none => exact pillsOn_update rfl rfl
    | some job => exact pillsOn_update (give_lanes ..) rfl
  | block | unpark | leave | leaveRecv =>
    simp only [threadStep]
    split <;> rfl
  | unparkCount got => exact pillsOn_update (unparked_lanes ..) rfl
  | unparkStore got => exact pillsOn_congr (unparked_lanes ..) lane
  | leaveCount job => exact pillsOn_update (give_lanes ..) rfl
  | leaveStore job => exact pillsOn_congr (give_lanes ..) lane
  | sockUncount found fromRing =>
    cases found with
    | none => exact pillsOn_update rfl rfl
    | some job => exact pillsOn_update (give_lanes ..) rfl
  | unregister =>
    simp only [threadStep]
    split
    · rfl
    · exact pillsOn_update rfl rfl
  | retire =>
    simp only [threadStep]
    split <;> rfl
  | _ => rfl

/-- A thread that reads one leaves one less there, and is told by it or leaves its park for it. -/
theorem thread_takes {m : Mem} {i : Nat} {step : Step} (h : TakesPill c m i step) :
    (pillsOn (threadStep c m i step).1 (c.lane i) + 1 = pillsOn m (c.lane i) ∧
        ∀ lane ≠ c.lane i, pillsOn (threadStep c m i step).1 lane = pillsOn m lane) ∧
      (step.needsOwn = false → (threadStep c m i step).1.life i ≠ .serving ∨
        ∃ step', (threadStep c m i step).2.point = some (.thread i step') ∧
          step'.holdsLane = true) := by
  obtain ⟨hreads, hhead⟩ := h
  obtain ⟨rest, hsock⟩ : ∃ rest, (m.lanes (c.lane i)).socket = .pill :: rest := by
    cases hs : (m.lanes (c.lane i)).socket with
    | nil =>
      rw [hs] at hhead
      cases hhead
    | cons got rest =>
      rw [hs] at hhead
      cases hhead
      exact ⟨rest, rfl⟩
  have hof : ∀ lane ≠ c.lane i,
      pillsOn (m.setLane (c.lane i) fun l => { l with socket := rest }) lane = pillsOn m lane := by
    intro lane hne
    unfold pillsOn
    rw [setLane_of_ne _ _ hne]
  cases step with
  | pollSocket look now =>
    simp only [threadStep, hsock]
    refine ⟨⟨?_, fun lane hne => ?_⟩, fun _ => ?_⟩
    · rw [pillsOn_found]
      exact pillsOn_taken hsock
    · rw [pillsOn_found]
      exact hof lane hne
    · unfold found
      split
      · exact Or.inr ⟨_, rfl, rfl⟩
      · refine Or.inl ?_
        show (Mem.setLife _ i .stopped).life i ≠ .serving
        rw [setLife_self]
        exact Life.noConfusion
  | recheckSocket =>
    simp only [threadStep, hsock]
    exact ⟨⟨pillsOn_taken hsock, hof⟩, Bool.noConfusion⟩
  | sockRecv =>
    simp only [threadStep, hsock]
    exact ⟨⟨pillsOn_taken hsock, hof⟩, fun _ => Or.inr ⟨_, rfl, rfl⟩⟩
  | _ => cases hreads

/-- A step of a wake or of the loop's side puts no pill anywhere. -/
theorem aside_pills (m : Mem) (pc : Pc) (hstop : pc.stops = false)
    (hthread : ∀ i step, pc ≠ .thread i step) (lane : Nat) :
    pillsOn (advance c m pc).1 lane = pillsOn m lane := by
  cases pc with
  | thread i step => exact absurd rfl (hthread i step)
  | stopping | stop => cases hstop
  | push | pops | peek => exact pillsOn_access ..
  | wake lane' after w =>
    cases w with
    | claim t =>
      simp only [advance, wakeStep]
      split <;> rfl
    | uncount | count => exact pillsOn_update rfl rfl
    | pokeSocket =>
      simp only [advance, wakeStep]
      split
      · exact pillsOn_update rfl (by simp)
      · rfl
    | _ => rfl
  | send lane' slot =>
    simp only [advance]
    split
    · exact pillsOn_update rfl (by simp)
    · rfl
  | _ => rfl

end Pool

end Offload

end MojoHttp
