import MojoHttp.Offload.Pool.Counts
import MojoHttp.Ring.Pops

/-!
# No lost wakeup

A thread parks in three steps: it says PARKED and counts itself, it looks at the ring again, and it
blocks. `submit` pushes, then looks for somebody to wake. So a job that is on the ring when all of a
lane have looked again was pushed behind the last of those looks, and its submitter finds them all
parked.

* **`Rung`** — the rings of the lanes keep their invariant among the pool's steps.
* **`Heard`** — a job at the head of a lane that has settled has a submitter that will wake one.
* **`heard_of_execution`** — this holds at every instant.
* **`no_lost_wakeup`** — so it does when the lane is asleep.
-/

namespace MojoHttp

namespace Offload

open MojoHttp.Ring (AtHead PopsBehind)
open Threads (Next Program Totals weigh)

namespace Pool

variable {c : Setup}

/-! ## The rings, at every instant -/

/-- The rings of all lanes keep their invariant, and whoever accesses one is in a call of its own. -/
structure Rung (c : Setup) (s : State) : Prop where
  ring : ∀ lane, Ring.Inv (RingId.job lane).size ((hosted c lane).view s)
  behind : ∀ lane, PopsBehind ((hosted c lane).view s)
  fitting : Fitting c s

theorem Rung.step {s : State} {t : Who} {pc : Pc} {m' : Mem} {nx : Next Pc Res} (h : Rung c s)
    (hpc : s.pc t = some pc) (hadv : advance c s.mem pc = (m', nx)) :
    Rung c (s.move t m' nx.point) where
  ring lane := (hosted c lane).inv_advance (h.ring lane) hpc hadv
  behind lane := ((hosted c lane).stepView_of_advance hpc hadv).popsBehind (h.behind lane)
  fitting := h.fitting.step hpc hadv

theorem Rung.call {s : State} {t : Who} {op : Op} (h : Rung c s) (hpc : s.pc t = none) :
    Rung c (s.move t s.mem (some (Pc.start c op))) where
  ring lane := (hosted c lane).inv_call (h.ring lane) hpc op
  behind lane := by
    have hquiet : Ring.Hosted.StepView (RingId.job lane).size ((hosted c lane).view s) t
        (((hosted c lane).view s).move t ((hosted c lane).view s).mem
          ((hosted c lane).access ((program c).start op))) :=
      .quiet _ (by rw [Ring.Hosted.view_pc, hpc]; rfl) ((hosted c lane).start op)
    rw [(hosted c lane).view_move]
    exact hquiet.popsBehind (h.behind lane)
  fitting := h.fitting.call

theorem rung_init : Rung c ⟨Mem.init c, fun _ => none⟩ := by
  refine ⟨fun lane => ?_, fun lane t pos h => (nomatch h), fun t pc a h => (nomatch h)⟩
  have hring : (hosted c lane).view (⟨Mem.init c, fun _ => none⟩ : State) =
      ⟨⟨Ring.init, [], []⟩, fun _ => none⟩ := by
    unfold Ring.Hosted.view
    rw [show (hosted c lane).ring (Mem.init c) = ⟨Ring.init, [], []⟩ from congrFun init_rings lane]
    rfl
  rw [hring]
  exact Ring.inv_init _

/-- **The rings, at every instant.** -/
theorem rung_of_execution (e : Execution c) : ∀ k ≤ e.labels.length, Rung c (e.state k) :=
  Program.invariant_of_roles rung_init (fun _ _ _ h hpc _ => h.call hpc)
    (fun _ _ _ _ _ h hpc hadv => h.step hpc hadv) e

/-! ## Settling down -/

/-- The steps of a thread that has looked at its lane's ring behind its announcement, and found
nothing. -/
def Step.settled : Step → Bool
  | .recheckSocket | .recheckPoke | .block | .sockRecv => true
  | _ => false

/-- Thread `i` has looked again and says it is parked: its state word does, if it has a channel of its
own. -/
def Settled (c : Setup) (s : State) (i : Nat) : Prop :=
  ∃ step, s.pc (.thread i) = some (.thread i step) ∧ step.settled = true ∧
    (c.own i = true → step ≠ .sockRecv ∧ (s.mem.recs i).state = .parked)

/-- Every thread dealt to the lane has. -/
def AllSettled (c : Setup) (s : State) (lane : Nat) : Prop :=
  ∀ i < c.threads.length, c.lane i = lane → Settled c s i

/-- Behind a step of a thread that does not look at the ring. -/
def Unsettled (nx : Next Pc Res) : Prop :=
  ∀ i step, nx.point = some (.thread i step) → step.settled = false

theorem unsettled_ret {res : Res} : Unsettled (.ret res) := fun _ _ h => nomatch h

theorem unsettled_goto {i : Nat} {step : Step} (h : step.settled = false) :
    Unsettled (.goto (.thread i step)) := by
  intro i' step' hpoint
  cases hpoint
  exact h

theorem unsettled_hand {i : Nat} {job : Job} {fromRing : Bool} :
    Unsettled (hand c i job fromRing) := by
  unfold hand
  split
  · exact unsettled_goto rfl
  · exact unsettled_ret

theorem unsettled_found {m : Mem} {i : Nat} {look : Look} {job : Job} {fromRing : Bool} :
    Unsettled (found c m i look job fromRing).2 := by
  unfold found
  split
  · exact unsettled_goto rfl
  · exact unsettled_hand

theorem settled_park {i : Nat} : (park c i).settled = false := by
  unfold park
  split <;> rfl

theorem unsettled_nothing {i : Nat} {look : Look} {now : Int} : Unsettled (nothing c i look now) := by
  unfold nothing
  split
  · exact unsettled_ret
  · split
    · split <;> exact unsettled_goto rfl
    · split
      · split
        · exact unsettled_goto rfl
        · exact unsettled_goto settled_park
      · exact unsettled_goto rfl

theorem unsettled_unparked {m : Mem} {i : Nat} {got : Own} : Unsettled (unparked m i got).2 := by
  cases got with
  | pill => exact unsettled_ret
  | poke => exact unsettled_goto rfl

/-- **A thread settles when it looks at the ring again.** -/
theorem unsettled_thread {m : Mem} {i : Nat} {step : Step} (h : step.settled = false)
    (hown : ∀ pc, step ≠ .recheck pc) (hsock : ∀ pc, step ≠ .sockPop pc) :
    Unsettled (threadStep c m i step).2 := by
  cases step with
  | recheck pc => exact absurd rfl (hown pc)
  | sockPop pc => exact absurd rfl (hsock pc)
  | recheckSocket | recheckPoke | block | sockRecv => cases h
  | enter | unregister =>
    simp only [threadStep]
    split
    all_goals first | exact unsettled_ret | exact unsettled_goto rfl
  | pill look =>
    simp only [threadStep]
    split
    · exact unsettled_ret
    · exact unsettled_goto rfl
  | pollLoad | pollStore | spinUp | unpark | leave | leaveRecv =>
    simp only [threadStep]
    split <;> exact unsettled_goto rfl
  | pollOwn look now =>
    simp only [threadStep]
    split
    · exact unsettled_goto rfl
    · exact unsettled_goto rfl
    · exact unsettled_found
  | pollSocket look now =>
    simp only [threadStep]
    split
    · exact unsettled_goto rfl
    · exact unsettled_goto rfl
    · exact unsettled_found
    · exact unsettled_found
  | pop look now pc =>
    show Unsettled (popBehind c i look now _)
    unfold popBehind
    split
    · exact unsettled_goto rfl
    · split
      · exact unsettled_goto rfl
      · exact unsettled_hand
    · exact unsettled_nothing
  | spinBack spinning =>
    cases spinning with
    | true => exact unsettled_goto rfl
    | false => exact unsettled_goto settled_park
  | spinDown found =>
    cases found with
    | none => exact unsettled_goto settled_park
    | some job => exact unsettled_hand
  | chain job pc =>
    show Unsettled (chainBehind c i job _)
    unfold chainBehind
    split
    · exact unsettled_goto rfl
    · exact unsettled_ret
    · intro i' step hpoint
      exact absurd rfl ((aside_wakeOne _ hpoint).2 i' step)
  | unparkCount | unparkStore => exact unsettled_unparked
  | leaveCount | leaveStore | retire => exact unsettled_ret
  | sockUncount found fromRing =>
    cases found with
    | none => exact unsettled_goto rfl
    | some job => exact unsettled_hand
  | _ => exact unsettled_goto rfl

/-- A thread that has settled stays so with its record as it was, or is woken. -/
theorem settled_stays {m : Mem} {i : Nat} {step step' : Step} (h : step.settled = true)
    (hpoint : (threadStep c m i step).2.point = some (.thread i step'))
    (hsettled : step'.settled = true) :
    (threadStep c m i step).1.recs i = m.recs i ∧ (step' ≠ .sockRecv → step ≠ .sockRecv) := by
  cases step with
  | recheckSocket =>
    simp only [threadStep] at hpoint ⊢
    split at hpoint
    all_goals cases hpoint
    · exact ⟨rfl, fun _ => Step.noConfusion⟩
    · exact ⟨rfl, fun _ => Step.noConfusion⟩
    all_goals cases hsettled
  | recheckPoke => exact ⟨rfl, fun _ => Step.noConfusion⟩
  | block =>
    simp only [threadStep] at hpoint ⊢
    split at hpoint
    all_goals cases hpoint
    · exact ⟨rfl, fun _ => Step.noConfusion⟩
    · cases hsettled
  | sockRecv =>
    simp only [threadStep] at hpoint ⊢
    split at hpoint
    all_goals cases hpoint
    · exact ⟨rfl, fun hne => absurd rfl hne⟩
    all_goals cases hsettled
  | _ => cases h

/-- A look goes on, has found a job, or lets its thread settle. -/
theorem recheck_settles {i : Nat} {step : Step} {nx : Next Ring.Pc Ring.Res}
    (hpoint : (recheckBehind i nx).point = some (.thread i step)) (hsettled : step.settled = true) :
    step = .recheckSocket ∧ ∃ res, nx = .ret res ∧ ∀ slot, res ≠ .popped (some slot) := by
  unfold recheckBehind at hpoint
  split at hpoint
  all_goals cases hpoint
  · cases hsettled
  · cases hsettled
  · rename_i res hnot
    exact ⟨rfl, res, rfl, hnot⟩

theorem sock_settles {i : Nat} {step : Step} {nx : Next Ring.Pc Ring.Res}
    (hpoint : (sockBehind i nx).point = some (.thread i step)) (hsettled : step.settled = true) :
    step = .sockRecv ∧ ∃ res, nx = .ret res ∧ ∀ slot, res ≠ .popped (some slot) := by
  unfold sockBehind at hpoint
  split at hpoint
  all_goals cases hpoint
  · cases hsettled
  · cases hsettled
  · rename_i res hnot
    exact ⟨rfl, res, rfl, hnot⟩

/-- A pop that returned no value returned None. -/
theorem popped_none {z : Ring.Size} {m : Ring.Traced} {p : Ring.Pc} {res : Ring.Res}
    (hop : p.op = .pop) (hret : ((Ring.program z).advance m p).2 = .ret res)
    (hnot : ∀ slot, res ≠ .popped (some slot)) :
    ((Ring.program z).advance m p).2 = .ret (.popped none) := by
  have ⟨out, heq⟩ := Ring.popped_of_op hop hret
  cases out with
  | some slot => exact absurd heq (hnot slot)
  | none => rw [hret, heq]

/-- **A thread that settles behind a look at the ring has found nothing there.** -/
theorem settles_of_look {m : Mem} {i : Nat} {step step' : Step}
    (hlook : (∃ p, step = .recheck p) ∨ ∃ p, step = .sockPop p)
    (hfits : ∀ a, (Pc.thread i step).target c = some a → (Pc.thread i step).fits a.2.op = true)
    (hpoint : (threadStep c m i step).2.point = some (.thread i step'))
    (hsettled : step'.settled = true) :
    ∃ p, (Pc.thread i step).target c = some (c.lane i, p) ∧
      ((Ring.program (RingId.job (c.lane i)).size).advance (m.rings (c.lane i)) p).2 =
        .ret (.popped none) := by
  rcases hlook with ⟨p, rfl⟩ | ⟨p, rfl⟩
  · obtain ⟨_, res, hret, hnot⟩ := recheck_settles hpoint hsettled
    exact ⟨p, rfl, popped_none (Pc.op_of_fits_recheck (hfits _ rfl)) hret hnot⟩
  · obtain ⟨_, res, hret, hnot⟩ := sock_settles hpoint hsettled
    exact ⟨p, rfl, popped_none (Pc.op_of_fits_sockPop (hfits _ rfl)) hret hnot⟩

/-- **How a thread comes to have settled**: a look at its lane's ring has found nothing. -/
theorem settles {s : State} {t : Who} {pc : Pc} {m' : Mem} {nx : Next Pc Res} (hp : Placed c s)
    (hr : Rung c s) (hpc : s.pc t = some pc) (hadv : advance c s.mem pc = (m', nx)) {i : Nat}
    (hnot : ¬ Settled c s i) (hsettled : Settled c (s.move t m' nx.point) i) :
    ∃ p, ((hosted c (c.lane i)).view s).pc t = some p ∧
      ((Ring.program (RingId.job (c.lane i)).size).advance (s.mem.rings (c.lane i)) p).2 =
        .ret (.popped none) := by
  obtain rfl : (advance c s.mem pc).1 = m' := congrArg Prod.fst hadv
  obtain rfl : (advance c s.mem pc).2 = nx := congrArg Prod.snd hadv
  have ⟨step', hat, hstep', hword⟩ := hsettled
  by_cases hthread : ∃ step, pc = .thread i step
  · obtain ⟨step, rfl⟩ := hthread
    have ⟨hwho, _, _⟩ := hp.thread t i step hpc
    subst hwho
    rw [s.move_pc_self] at hat
    cases hstep : step.settled with
    | true =>
      -- it had settled before
      have ⟨hrec, hsock⟩ := settled_stays hstep hat hstep'
      refine absurd ⟨step, hpc, hstep, fun hown => ?_⟩ hnot
      have ⟨hne, hstate⟩ := hword hown
      exact ⟨hsock hne, (congrArg Rec.state hrec).symm.trans hstate⟩
    | false =>
      have hlook : (∃ p, step = .recheck p) ∨ ∃ p, step = .sockPop p := by
        by_contra hno
        rw [not_or] at hno
        have hawake := unsettled_thread hstep (fun p h => hno.1 ⟨p, h⟩) (fun p h => hno.2 ⟨p, h⟩)
          i step' hat
        rw [hstep'] at hawake
        cases hawake
      have ⟨p, htarget, hret⟩ :=
        settles_of_look hlook (fun a ha => hr.fitting _ _ a hpc ha) hat hstep'
      refine ⟨p, ?_, hret⟩
      rw [Ring.Hosted.view_pc, hpc]
      exact (jobRings c).accessTo_eq_some.mpr htarget
  · have hne : ∀ step, pc ≠ .thread i step := fun step heq => hthread ⟨step, heq⟩
    rcases eq_or_ne (.thread i : Who) t with rfl | hnet
    · -- a step of a wake is followed by no point of a thread's
      exfalso
      have hnone : ∀ j step, pc ≠ .thread j step := by
        rintro j step rfl
        have ⟨heq, _⟩ := hp.thread _ j step hpc
        cases heq
        exact hne step rfl
      have hstop : pc.stops = false := by
        rw [Bool.eq_false_iff]
        intro hs
        cases hp.stop _ pc hpc hs
      rw [s.move_pc_self] at hat
      exact (aside_advance s.mem pc hstop hnone _ hat).2 i step' rfl
    · rw [s.move_pc_of_ne _ _ hnet] at hat
      refine absurd ⟨step', hat, hstep', fun hown => ?_⟩ hnot
      have ⟨hsock, hstate⟩ := hword hown
      refine ⟨hsock, ?_⟩
      rcases (advance_poked (c := c) s.mem pc i hne).state with hsame | ⟨hparked, -⟩
      · exact hsame.symm.trans hstate
      · exact hparked

/-! ## Who will wake one -/

/-- How many threads of a lane have no channel of their own. -/
def unnamed (c : Setup) (lane : Nat) : Nat :=
  ((Finset.range c.threads.length).filter fun i => c.lane i = lane ∧ c.own i = false).card

/-- The scan has found a thread of the lane, or has one before it. -/
def Wake.finds (c : Setup) (lane : Nat) : Wake → Prop
  | .lane t best => best ≠ none ∨ ∃ j ≥ t, Names c lane j
  | .state _ _ => True
  | .seq _ _ => True
  | .claim _ => True
  | _ => False

/-- A submitter behind its push that will wake a thread of a lane all of which has settled. -/
def Pc.WillWake (c : Setup) (m : Mem) (lane : Nat) : Pc → Prop
  | .spinners lane' => lane' = lane
  | .parked lane' => lane' = lane
  | .parkedReg lane' n => lane' = lane ∧ (unnamed c lane : Int) ≤ n
  | .threads lane' n => lane' = lane ∧ (m.lanes lane).threads ≤ n
  | .wake lane' .submitted w => lane' = lane ∧ w.finds c lane
  | _ => False

theorem lt_of_names {lane j : Nat} (h : Names c lane j) : j < c.threads.length :=
  Nat.lt_of_lt_of_le (lt_registered h.1) (Nat.min_le_left ..)

/-- A scan that will find a thread goes on, or claims one. -/
theorem scan_finds {m : Mem} {lane t : Nat} {best : Option (Nat × Nat)}
    (h : best ≠ none ∨ ∃ j ≥ t, Names c lane j) :
    ∃ pc, (scan c lane .submitted t best).point = some pc ∧ pc.WillWake c m lane := by
  unfold scan
  split
  · exact ⟨_, rfl, rfl, h⟩
  · rename_i hge
    cases best with
    | some b => exact ⟨_, rfl, rfl, trivial⟩
    | none =>
      -- every record of the lane is before the end of the scan
      obtain ⟨j, hj, hnames⟩ := h.resolve_left fun hne => hne rfl
      have hlt := lt_registered hnames.1
      omega

/-- A settled thread has not left, so its record is under its lane. -/
theorem lane_of_settled {s : State} (hp : Placed c s) {lane j : Nat} (hnames : Names c lane j)
    (h : Settled c s j) : (s.mem.recs j).lane = lane := by
  have ⟨step, hpc, hstep, _⟩ := h
  have ⟨_, _, hok⟩ := hp.thread _ j step hpc
  have hserving : s.mem.life j = .serving := by
    refine hok.serving ?_
    cases step with
    | enter | chain | unregister | retire => cases hstep
    | _ => rfl
  rcases (hp.record j).own hnames.1 with heq | ⟨-, hleft⟩
  · rw [heq, hnames.2]
  · rw [hserving] at hleft
    cases hleft

/-! ### The words of a lane that has settled -/

section

variable {s : State} {lane : Nat}

/-- A point of a thread of such a lane. -/
theorem AllSettled.point (h : AllSettled c s lane) (hp : Placed c s) {t : Who} {i : Nat} {step : Step}
    (hpc : s.pc t = some (.thread i step)) (hlane : c.lane i = lane) : step.settled = true := by
  have ⟨hwho, hlt, _⟩ := hp.thread t i step hpc
  subst hwho
  have ⟨step', hpc', hstep', _⟩ := h i hlt hlane
  rw [hpc] at hpc'
  cases hpc'
  exact hstep'

/-- Nobody spins. -/
theorem spinners_of_settled (h : AllSettled c s lane) (hp : Placed c s) (hc : Counted c s lane) :
    (s.mem.lanes lane).spinners = 0 := by
  refine hc.spinners.eq_zero fun t pc hpc => ?_
  cases pc with
  | thread i step =>
    show (if c.lane i = lane then step.spins else 0) = 0
    split
    · rename_i hlane
      have hstep := h.point hp hpc hlane
      cases step with
      | recheckSocket | recheckPoke | block | sockRecv => rfl
      | _ => cases hstep
    · rfl
  | _ => rfl

/-- Those without a channel are counted among the parked. -/
theorem unnamed_le_parked (h : AllSettled c s lane) (hp : Placed c s) (hc : Counted c s lane) :
    (unnamed c lane : Int) ≤ (s.mem.lanes lane).parked := by
  have hinj : Set.InjOn Who.thread
      ((Finset.range c.threads.length).filter fun i => c.lane i = lane ∧ c.own i = false) :=
    fun i _ j _ heq => Who.thread.inj heq
  rw [unnamed, ← Finset.card_image_of_injOn hinj]
  refine hc.parked.card_le (Pc.counted_nonneg lane) _ fun t ht => ?_
  obtain ⟨i, hi, rfl⟩ := Finset.mem_image.mp ht
  obtain ⟨hlt, hlane, hown⟩ := Finset.mem_filter.mp hi
  have ⟨step, hpc, hstep, _⟩ := h i (Finset.mem_range.mp hlt) hlane
  refine ⟨_, hpc, ?_⟩
  show 1 ≤ if c.lane i = lane then step.counted else 0
  rw [if_pos hlane]
  have ⟨_, _, hok⟩ := hp.thread _ i step hpc
  cases step with
  | sockRecv => exact Int.le_refl 1
  | recheckSocket | recheckPoke | block =>
    have howner := hok.own rfl
    rw [hown] at howner
    cases howner
  | _ => cases hstep

/-- Those with one have been counted, and none is uncounted before its word is changed. -/
theorem parkedRecs_le (h : AllSettled c s lane) (hp : Placed c s) (hc : Counted c s lane) :
    (parkedRecs c s.mem lane : Int) ≤ (s.mem.lanes lane).parkedReg := by
  have hnonneg : 0 ≤ (s.mem.lanes lane).parkedReg - parkedRecs c s.mem lane := by
    refine hc.parkedReg.nonneg fun t pc hpc => ?_
    cases pc with
    | thread i step =>
      show 0 ≤ if c.lane i = lane then step.owed else 0
      split
      · rename_i hlane
        have hstep := h.point hp hpc hlane
        cases step with
        | recheckSocket | recheckPoke | block | sockRecv => exact Int.le_refl 0
        | _ => cases hstep
      · exact Int.le_refl 0
    | wake lane' after w =>
      show 0 ≤ if lane' = lane then w.owed else 0
      split
      · cases w with
        | uncount t => exact Int.one_nonneg
        | _ => exact Int.le_refl 0
      · exact Int.le_refl 0
    | _ => exact Int.le_refl 0
  omega

/-- All threads of the lane are parked, one way or the other. -/
theorem dealtOn_le (h : AllSettled c s lane) :
    c.dealtOn lane ≤ unnamed c lane + parkedRecs c s.mem lane := by
  rw [dealtOn_eq, unnamed, parkedRecs]
  refine (Finset.card_le_card fun i hi => ?_).trans (Finset.card_union_le _ _)
  have ⟨hlt, hlane⟩ := Finset.mem_filter.mp hi
  rw [Finset.mem_union, Finset.mem_filter, Finset.mem_filter]
  cases hown : c.own i with
  | false => exact Or.inl ⟨hlt, hlane, rfl⟩
  | true =>
    have ⟨_, _, _, hword⟩ := h i (Finset.mem_range.mp hlt) hlane
    exact Or.inr ⟨hlt, rfl, hlane, (hword hown).2⟩

end

/-- A submitter that wakes somebody of a lane with a channel to name. -/
theorem wakeOne_finds {m : Mem} {lane : Nat} (hnames : ∃ j, Names c lane j) :
    ∃ pc, (wakeOne c lane .submitted).point = some pc ∧ pc.WillWake c m lane := by
  obtain ⟨j, hj⟩ := hnames
  exact scan_finds (Or.inr ⟨j, Nat.zero_le j, hj⟩)

/-- **Its own steps**: a submitter that will wake one does, while the lane has settled. -/
theorem willWake_advance {s : State} {lane : Nat} {t : Who} {pc : Pc} (h : AllSettled c s lane)
    (hp : Placed c s) (hst : Stated c s) (hc : Counted c s lane) (hnames : ∃ j, Names c lane j)
    (hpc : s.pc t = some pc) (hwill : pc.WillWake c s.mem lane)
    (hafter : AllSettled c (s.move t (advance c s.mem pc).1 (advance c s.mem pc).2.point) lane) :
    ∃ pc', (advance c s.mem pc).2.point = some pc' ∧
      pc'.WillWake c (advance c s.mem pc).1 lane := by
  cases pc with
  | spinners lane' =>
    obtain rfl : lane' = lane := hwill
    have hzero := spinners_of_settled h hp hc
    refine ⟨.parked lane', ?_, rfl⟩
    simp only [advance]
    rw [if_neg (by omega)]
    rfl
  | parked lane' =>
    obtain rfl : lane' = lane := hwill
    exact ⟨_, rfl, rfl, unnamed_le_parked h hp hc⟩
  | parkedReg lane' n =>
    obtain ⟨rfl, hle⟩ := hwill
    refine ⟨_, rfl, rfl, ?_⟩
    -- all that the lane counts are parked
    have hthreads := hc.threads
    have hdealt := dealtOn_le h
    have hrecs := parkedRecs_le h hp hc
    show (s.mem.lanes lane').threads ≤ n + (s.mem.lanes lane').parkedReg
    omega
  | threads lane' n =>
    obtain ⟨rfl, hle⟩ := hwill
    simp only [advance]
    rw [if_pos hle]
    exact wakeOne_finds hnames
  | wake lane' after w =>
    cases after with
    | submitted =>
      obtain ⟨rfl, hfinds⟩ := hwill
      have hok := hst.wakes t lane' .submitted w hpc
      cases w with
      | lane t' best =>
        simp only [advance, wakeStep]
        split
        · exact ⟨_, rfl, rfl, trivial⟩
        · rename_i hnot
          refine scan_finds (hfinds.imp_right fun hfound => ?_)
          obtain ⟨j, hge, hj⟩ := hfound
          refine ⟨j, ?_, hj⟩
          -- the record it is at is of another lane
          rcases Nat.lt_or_eq_of_le hge with hlt | rfl
          · exact hlt
          · exact absurd (lane_of_settled hp hj (h _ (lt_of_names hj) hj.2)) hnot
      | state t' best =>
        obtain ⟨_, _, _, hword⟩ := h t' (lt_of_names hok.1) hok.1.2
        simp only [advance, wakeStep]
        rw [if_pos (hword hok.1.1).2]
        exact ⟨_, rfl, rfl, trivial⟩
      | seq t' best =>
        refine scan_finds (Or.inl ?_)
        cases best with
        | none => exact Option.some_ne_none _
        | some b =>
          split
          · exact Option.some_ne_none _
          · exact Option.some_ne_none _
      | claim t' =>
        -- the thread it claims is no longer parked
        exfalso
        obtain ⟨_, _, _, hword⟩ := h t' (lt_of_names hok) hok.2
        obtain ⟨_, _, _, hword'⟩ := hafter t' (lt_of_names hok) hok.2
        have hwoken := (hword' hok.1).2
        rw [Threads.State.move_mem] at hwoken
        simp only [advance, wakeStep] at hwoken
        rw [if_pos (hword hok.1).2, setRec_self] at hwoken
        cases hwoken
      | _ => exact hfinds.elim
    | _ => exact hwill.elim
  | _ => exact hwill.elim

/-! ## At every instant -/

/-- **A lane that has settled is heard of**: when a job is at the head of its ring, a submitter is
about to wake one of its threads. -/
def Heard (c : Setup) (s : State) (lane : Nat) : Prop :=
  (∃ j, Names c lane j) → AllSettled c s lane → AtHead (RingId.job lane).size (s.mem.rings lane) →
    ∃ t pc, s.pc t = some pc ∧ pc.WillWake c s.mem lane

/-- A count of threads that goes down leaves its reader as it was. -/
theorem Pc.WillWake.mono {m m' : Mem} {lane : Nat} {pc : Pc} (h : pc.WillWake c m lane)
    (hle : (m'.lanes lane).threads ≤ (m.lanes lane).threads) : pc.WillWake c m' lane := by
  cases pc with
  | threads lane' n => exact ⟨h.1, hle.trans h.2⟩
  | wake lane' after w =>
    cases after with
    | submitted => exact h
    | _ => exact h.elim
  | _ => exact h

/-- What an access to a ring of the pool is, from the ring's own point. -/
theorem target_of_view {s : State} {lane : Nat} {t : Who} {pc : Pc} {p : Ring.Pc}
    (hpc : s.pc t = some pc) (hat : ((hosted c lane).view s).pc t = some p) :
    pc.target c = some (lane, p) := by
  rw [Ring.Hosted.view_pc, hpc] at hat
  exact (jobRings c).accessTo_eq_some.mp hat

/-- **A job that comes to the head of a lane that has settled has just been pushed.** -/
theorem heard_of_pushed {s : State} {lane : Nat} {t : Who} {pc : Pc} {m' : Mem} {nx : Next Pc Res}
    (hnames : ∃ j, Names c lane j) (h : AllSettled c s lane) (hp : Placed c s) (hr : Rung c s)
    (hpc : s.pc t = some pc) (hadv : advance c s.mem pc = (m', nx))
    (hnot : ¬ AtHead (RingId.job lane).size (s.mem.rings lane))
    (hat : AtHead (RingId.job lane).size (m'.rings lane)) :
    ∃ pc', nx.point = some pc' ∧ pc'.WillWake c m' lane := by
  have hview := (hosted c lane).stepView_of_advance hpc hadv
  generalize hs' : (hosted c lane).view (s.move t m' nx.point) = s' at hview
  have hmem : s'.mem = m'.rings lane := hs' ▸ rfl
  cases hview with
  | quiet pc' hidle hfresh =>
    have heq : m'.rings lane = s.mem.rings lane := hmem.symm
    rw [heq] at hat
    exact absurd hat hnot
  | access p r' pc' hacc hr' hnext =>
    have htarget := target_of_view hpc hacc
    have hfits := hr.fitting t pc _ hpc htarget
    have hok := (hr.ring lane).points t p hacc
    subst hr'
    have heq : m'.rings lane =
        ((Ring.program (RingId.job lane).size).advance (s.mem.rings lane) p).1 := hmem.symm
    rw [heq] at hat
    rcases Ring.atHead_begins (Ring.effect_advance (RingId.job lane).size (s.mem.rings lane) p) hok hnot
      hat with ⟨value, rfl, -⟩ | ⟨pos, rfl⟩
    · -- a push has published its value
      cases pc with
      | push lane' q =>
        cases htarget
        have hnx : nx = pushBehind c lane (.ret (.pushed true)) := (congrArg Prod.snd hadv).symm
        rw [hnx]
        unfold pushBehind
        dsimp only
        split
        · exact wakeOne_finds hnames
        · exact ⟨_, rfl, rfl⟩
      | thread i step =>
        cases step with
        | pop | chain | recheck | sockPop =>
          cases htarget
          cases hfits
        | _ => cases htarget
      | pops | peek =>
        cases htarget
        cases hfits
      | _ => cases htarget
    · -- no thread of the lane is in a pop
      exfalso
      cases pc with
      | thread i step =>
        have hlane : c.lane i = lane := by
          cases step with
          | pop | chain | recheck | sockPop =>
            cases htarget
            rfl
          | _ => cases htarget
        have hstep := h.point hp hpc hlane
        cases step with
        | recheckSocket | recheckPoke | block | sockRecv => cases htarget
        | _ => cases hstep
      | push | pops | peek =>
        cases htarget
        cases hfits
      | _ => cases htarget

/-- **A step keeps a lane heard of.** -/
theorem Heard.step {s : State} {lane : Nat} {t : Who} {pc : Pc} {m' : Mem} {nx : Next Pc Res}
    (h : Heard c s lane) (hp : Placed c s) (hst : Stated c s) (hc : AllCounted c s) (hr : Rung c s)
    (hpc : s.pc t = some pc) (hadv : advance c s.mem pc = (m', nx)) :
    Heard c (s.move t m' nx.point) lane := by
  intro hnames hafter hat
  by_cases hbefore : AllSettled c s lane
  · by_cases hat' : AtHead (RingId.job lane).size (s.mem.rings lane)
    · have ⟨u, p, hu, hwill⟩ := h hnames hbefore hat'
      obtain rfl : (advance c s.mem pc).1 = m' := congrArg Prod.fst hadv
      obtain rfl : (advance c s.mem pc).2 = nx := congrArg Prod.snd hadv
      rcases eq_or_ne u t with rfl | hne
      · rw [hpc] at hu
        cases hu
        have ⟨pc', hpoint, hwill'⟩ :=
          willWake_advance hbefore hp hst (hc.lane lane) hnames hpc hwill hafter
        exact ⟨u, pc', (s.move_pc_self ..).trans hpoint, hwill'⟩
      · exact ⟨u, p, (s.move_pc_of_ne _ _ hne).trans hu,
          hwill.mono (hc.balances hp hst hpc lane).threads⟩
    · have ⟨pc', hpoint, hwill⟩ := heard_of_pushed hnames hbefore hp hr hpc hadv hat' hat
      exact ⟨t, pc', (s.move_pc_self ..).trans hpoint, hwill⟩
  · -- the last of the lane has settled with this step, and the ring is empty
    exfalso
    have hnew : ∃ i, c.lane i = lane ∧ ¬ Settled c s i ∧ Settled c (s.move t m' nx.point) i := by
      unfold AllSettled at hbefore
      push Not at hbefore
      obtain ⟨i, hlt, hlane, hnot⟩ := hbefore
      exact ⟨i, hlane, hnot, hafter i hlt hlane⟩
    obtain ⟨i, rfl, hnot, hsettled⟩ := hnew
    have ⟨p, hview, hret⟩ := settles hp hr hpc hadv hnot hsettled
    have hnone := Ring.not_atHead_of_none (hr.ring (c.lane i)) (hr.behind (c.lane i)) hview hret
    have hacc : (hosted c (c.lane i)).access pc = some p := by
      rw [Ring.Hosted.view_pc, hpc] at hview
      exact hview
    have hring : ((program c).advance s.mem pc).1.rings (c.lane i) =
        ((Ring.program (RingId.job (c.lane i)).size).advance (s.mem.rings (c.lane i)) p).1 :=
      ((hosted c (c.lane i)).step s.mem pc p hacc).1
    rw [show (program c).advance s.mem pc = (m', nx) from hadv] at hring
    have hat' : AtHead (RingId.job (c.lane i)).size (m'.rings (c.lane i)) := hat
    rw [hring] at hat'
    exact hnone hat'

theorem Heard.call {s : State} {lane : Nat} {t : Who} {op : Op} (h : Heard c s lane)
    (hpc : s.pc t = none) : Heard c (s.move t s.mem (some (Pc.start c op))) lane := by
  have hkeep : ∀ u pc, s.pc u = some pc → (s.move t s.mem (some (Pc.start c op))).pc u = some pc := by
    intro u pc hu
    rw [s.move_pc_of_ne]
    · exact hu
    · intro heq
      rw [heq, hpc] at hu
      cases hu
  intro hnames hafter hat
  have hbefore : AllSettled c s lane := by
    intro i hlt hlane
    have ⟨step, hi, hstep, hword⟩ := hafter i hlt hlane
    refine ⟨step, ?_, hstep, hword⟩
    rcases eq_or_ne (.thread i : Who) t with rfl | hne
    · -- nobody settles with the start of a call
      rw [s.move_pc_self] at hi
      cases op with
      | nextJob | tryNextJob | leavePool =>
        cases hi
        cases hstep
      | _ => cases hi
    · rw [s.move_pc_of_ne _ _ hne] at hi
      exact hi
  have ⟨u, pc, hu, hwill⟩ := h hnames hbefore hat
  exact ⟨u, pc, hkeep u pc hu, hwill⟩

theorem heard_init (lane : Nat) : Heard c ⟨Mem.init c, fun _ => none⟩ lane := by
  intro ⟨j, hj⟩ hall
  have ⟨_, hpc, _⟩ := hall j (lt_of_names hj) hj.2
  cases hpc

/-- **Every lane is heard of, at every instant.** -/
theorem heard_of_execution (e : Execution c) :
    ∀ k ≤ e.labels.length, ∀ lane, Heard c (e.state k) lane := by
  have hplaced := placed_of_execution e
  have hstated := stated_of_execution e
  have hcounted := counted_of_execution e
  have hrung := rung_of_execution e
  refine Program.invariant_of_run e (I := fun s => ∀ lane, Heard c s lane) heard_init
    (fun s t op h hpc _ lane => (h lane).call hpc) ?_
  intro k t act pc m' nx hl h hpc hadv lane
  have hk : k ≤ e.labels.length := Nat.le_of_lt (LabelledSystem.Execution.lt_length hl)
  exact (h lane).step (hplaced k hk) (hstated k hk) (hcounted k hk) (hrung k hk) hpc hadv

/-! ## A lane that is asleep -/

/-- Thread `i` is blocked: on its own channel, with nothing there, when it has one, else on its lane's
socket. -/
def Asleep (c : Setup) (s : State) (i : Nat) : Prop :=
  if c.own i then s.pc (.thread i) = some (.thread i .block) ∧ (s.mem.recs i).channel = []
  else s.pc (.thread i) = some (.thread i .sockRecv)

/-- A submitter between its push and its wake on the lane, or anybody between the claim of a thread
of the lane and its poke. -/
def Pc.between (lane : Nat) : Pc → Prop
  | .push lane' pc => lane' = lane ∧ pc.pushing ≠ none
  | .spinners lane' => lane' = lane
  | .parked lane' => lane' = lane
  | .parkedReg lane' _ => lane' = lane
  | .threads lane' _ => lane' = lane
  | .wake lane' .submitted _ => lane' = lane
  | .wake lane' _ (.uncount _) => lane' = lane
  | .wake lane' _ (.poke _) => lane' = lane
  | _ => False

theorem between_of_willWake {m : Mem} {lane : Nat} {pc : Pc} (h : pc.WillWake c m lane) :
    pc.between lane := by
  cases pc with
  | spinners | parked => exact h
  | parkedReg | threads => exact h.1
  | wake lane' after w =>
    cases after with
    | submitted => exact h.1
    | _ => exact h.elim
  | _ => exact h.elim

/-- A wake that owes a thread its poke is between. -/
theorem between_of_pokes {lane t : Nat} {after : After} {w : Wake} (h : w.pokes t) :
    (Pc.wake lane after w).between lane := by
  cases w with
  | uncount | poke => cases after <;> rfl
  | _ => exact h.elim

/-- A thread that is asleep has settled, or its waker has its poke still to send. -/
theorem settled_of_asleep {s : State} (hst : Stated c s) {i : Nat} (h : Asleep c s i) :
    Settled c s i ∨
      ∃ t lane after w, s.pc t = some (.wake lane after w) ∧ w.pokes i := by
  unfold Asleep at h
  split at h
  · rename_i hown
    obtain ⟨hpc, hchannel⟩ := h
    have hword : (s.mem.recs i).state ≠ .running := by
      have hat := hst.own i hown
      rw [hpc] at hat
      exact hat
    cases hstate : (s.mem.recs i).state with
    | running => exact absurd hstate hword
    | parked => exact Or.inl ⟨.block, hpc, rfl, fun _ => ⟨nofun, hstate⟩⟩
    | woken =>
      rcases hst.woken i hstate with ⟨step, hpc', hfetched⟩ | hsome | hpokes
      · rw [hpc] at hpc'
        cases hpc'
        cases hfetched
      · exact absurd hchannel hsome
      · exact Or.inr hpokes
  · rename_i hown
    exact Or.inl ⟨.sockRecv, h, rfl, fun howner => absurd howner hown⟩

/-- **No wakeup is lost.** When every thread of a lane is asleep, one of them with a channel of its
own, and there is a job on the lane's ring, then a submitter is between its push and its wake, or a
waker between its claim and its poke. And whenever nobody is between its change of a state word and of
the count that goes with it, the lane counts the threads that say PARKED. -/
theorem no_lost_wakeup (e : Execution c) : ∀ k ≤ e.labels.length, ∀ lane,
    (((e.state k).mem.rings lane).ring.head < ((e.state k).mem.rings lane).ring.tail →
      (∃ j, Names c lane j) →
      (∀ i < c.threads.length, c.lane i = lane → Asleep c (e.state k) i) →
      ∃ t pc, (e.state k).pc t = some pc ∧ pc.between lane) ∧
    ((∀ t pc, (e.state k).pc t = some pc → pc.owed c lane = 0) →
      ((e.state k).mem.lanes lane).parkedReg = parkedRecs c (e.state k).mem lane) := by
  intro k hk lane
  have hst := stated_of_execution e k hk
  have hr := rung_of_execution e k hk
  have hc := (counted_of_execution e k hk).lane lane
  refine ⟨fun hjob hnames hasleep => ?_, fun hnone => ?_⟩
  · rcases Ring.atHead_or_pushing (hr.ring lane) hjob with hat | ⟨t, p, hp, hpushing⟩
    · by_cases hsettled : AllSettled c (e.state k) lane
      · have ⟨t, pc, hpc, hwill⟩ := heard_of_execution e k hk lane hnames hsettled hat
        exact ⟨t, pc, hpc, between_of_willWake hwill⟩
      · -- a thread of the lane has been claimed
        unfold AllSettled at hsettled
        push Not at hsettled
        obtain ⟨i, hlt, hlane, hnot⟩ := hsettled
        obtain ⟨t, lane', after, w, hpc, hw⟩ :=
          (settled_of_asleep hst (hasleep i hlt hlane)).resolve_left hnot
        have hnames' : c.lane i = lane' := by
          have hok := hst.wakes t lane' after w hpc
          cases w with
          | uncount | poke =>
            obtain rfl := hw
            exact hok.2
          | _ => exact hw.elim
        obtain rfl : lane' = lane := hnames'.symm.trans hlane
        exact ⟨t, _, hpc, between_of_pokes hw⟩
    · -- the push of the head's value is still under way
      rw [Ring.Hosted.view_pc] at hp
      obtain ⟨pc, hpc, hacc⟩ := Option.bind_eq_some_iff.mp hp
      have htarget := (jobRings c).accessTo_eq_some.mp hacc
      have hfits := hr.fitting t pc _ hpc htarget
      refine ⟨t, pc, hpc, ?_⟩
      have hop : ∃ value, p.op = .push value := by
        cases p with
        | pushWrite value pos | pushPublish value pos => exact ⟨value, rfl⟩
        | _ => cases hpushing
      obtain ⟨value, hop⟩ := hop
      cases pc with
      | push lane' q =>
        cases htarget
        exact ⟨rfl, fun heq => nomatch hpushing.symm.trans heq⟩
      | thread i step =>
        cases step with
        | pop | chain | recheck | sockPop =>
          cases htarget
          simp [Pc.fits, hop] at hfits
        | _ => cases htarget
      | pops | peek =>
        cases htarget
        simp [Pc.fits, hop] at hfits
      | _ => cases htarget
  · have hzero := hc.parkedReg.eq_zero hnone
    omega

/-- A lane with one thread that has a channel, and `others` that have none. -/
def besides (others : Nat) : Setup where
  elastic := true
  parallel := false
  spin := 0
  lanes := 1
  reserved := 1
  threads := (0, true) :: List.replicate others (0, false)
  fits _ _ := true
  dealt := by simp

/-- The first thread finds nothing and parks; then a job is pushed. -/
def pushedBehind : List (Threads.Label Who Op Res) :=
  [⟨.clock, .call (.tick 1)⟩, ⟨.clock, .ret .done⟩, ⟨.thread 0, .call (.nextJob 0)⟩] ++
    List.replicate 19 ⟨.thread 0, .go⟩ ++ [⟨.loop 0, .call (.submit 0 0 7)⟩] ++
    List.replicate 5 ⟨.loop 0, .go⟩

theorem pushedBehind_runs : (((program (besides 0)).systemOf (may (besides 0))
    (Mem.init (besides 0))).run ((program (besides 0)).systemOf (may (besides 0))
      (Mem.init (besides 0))).init pushedBehind).isSome := by
  decide

/-- Who takes no step in such a run is in no call. -/
theorem silent_of_labels {others : Nat} (e : Execution (besides others))
    (h : ∀ l ∈ e.labels, l.thread = .thread 0 ∨ l.thread = .loop 0 ∨ l.thread = .clock) {k : Nat}
    (hk : k ≤ e.labels.length) {t : Who} {pc : Pc} (hpc : (e.state k).pc t = some pc) :
    t = .thread 0 ∨ t = .loop 0 ∨ t = .clock := by
  by_contra hnot
  have hsilent : (e.state k).pc t = none :=
    Program.pc_of_silent e (fun l hl heq => hnot (by rw [← heq]; exact h l hl)) k hk
  rw [hsilent] at hpc
  cases hpc

/-- There the submitter is about to wake it, and the lane counts it. -/
theorem pushedBehind_not_lost :
    (∃ t pc, ((LabelledSystem.Execution.ofRun _ pushedBehind pushedBehind_runs).state 28).pc t = some pc ∧
      pc.between 0) ∧
    (((LabelledSystem.Execution.ofRun _ pushedBehind pushedBehind_runs).state 28).mem.lanes 0).parkedReg =
      parkedRecs (besides 0) ((LabelledSystem.Execution.ofRun _ pushedBehind pushedBehind_runs).state 28).mem
        0 := by
  have hlost := no_lost_wakeup (.ofRun _ pushedBehind pushedBehind_runs) 28 (by decide) 0
  refine ⟨hlost.1 (by decide) ⟨0, by decide⟩ fun i hi _ => ?_, hlost.2 fun t pc hpc => ?_⟩
  · obtain rfl : i = 0 := Nat.lt_one_iff.mp hi
    exact ⟨by rfl, by decide⟩
  · rcases silent_of_labels (.ofRun _ pushedBehind pushedBehind_runs) (by decide) (by decide) hpc with
      rfl | rfl | rfl
    · obtain rfl : Pc.thread 0 .block = pc := Option.some.inj hpc
      rfl
    · obtain rfl : Pc.spinners 0 = pc := Option.some.inj hpc
      rfl
    · cases hpc

/-- The same beside a thread that has no channel, and is in no call: nobody is woken. -/
def leftToAnother : List (Threads.Label Who Op Res) :=
  pushedBehind ++ List.replicate 3 ⟨.loop 0, .go⟩ ++ [⟨.loop 0, .ret (.submitted true)⟩]

theorem leftToAnother_runs : (((program (besides 1)).systemOf (may (besides 1))
    (Mem.init (besides 1))).run ((program (besides 1)).systemOf (may (besides 1))
      (Mem.init (besides 1))).init leftToAnother).isSome := by
  decide

/-- **A job on the ring of a lane whose registered threads all sleep**: the submitter has seen that one
of its threads is awake, and leaves the job to it. -/
theorem asleep_beside_an_awake_thread : ¬ ∀ (c : Setup) (e : Execution c), ∀ k ≤ e.labels.length, ∀ lane,
    ((e.state k).mem.rings lane).ring.head < ((e.state k).mem.rings lane).ring.tail →
      (∃ j, Names c lane j) → (∀ i, Names c lane i → Asleep c (e.state k) i) →
      ∃ t pc, (e.state k).pc t = some pc ∧ pc.between lane := by
  intro h
  have hlost := h (besides 1) (.ofRun _ leftToAnother leftToAnother_runs) 32 (by decide) 0
    (by decide) ⟨0, by decide⟩
  obtain ⟨t, pc, hpc, hbetween⟩ := hlost fun i hi => by
    obtain rfl : i = 0 := by
      have hlt := hi.1
      simp [Setup.own, Setup.cap, besides] at hlt
      exact hlt.1
    exact ⟨by rfl, by decide⟩
  rcases silent_of_labels (.ofRun _ leftToAnother leftToAnother_runs) (by decide) (by decide) hpc with
    rfl | rfl | rfl
  · obtain rfl : Pc.thread 0 .block = pc := Option.some.inj hpc
    exact hbetween
  · cases hpc
  · cases hpc

end Pool

end Offload

end MojoHttp
