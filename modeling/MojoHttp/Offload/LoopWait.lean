import MojoHttp.Offload.Pending
import Mathlib.Data.Finset.Card

/-!
# The loop waits for its pool (`offload.mojo`, `event_loop.mojo`)

A pool thread that has answered a request pushes its slot onto the completion ring, then reads the
loop's flag, and pokes the loop if the flag is up. A loop that is about to wait raises the flag,
then asks the ring whether a completion is there, and blocks only if none is. The flag comes down
when the loop is back.

* **`program`** — `complete` and `_wait_for_events`, with the loop's submits and its drain, one
  access a step; the flag starts raised.
* **`Sound`** — what holds at every instant: of the flag, of the head, and that a poke is coming to
  a blocked loop while a completion is at the head.
* **`Sound.step`** — every step keeps it.

With rings. A poke is delivered: the write end of the completion channel blocks. The thread a job
goes to is the one whose call names its slot.
-/

namespace MojoHttp

namespace Offload

open MojoHttp.Ring (Traced Inv)
open Threads (Next Program)

namespace LoopWait

/-- The size of `done_ring`. -/
abbrev doneSize : Ring.Size := RingId.done.size

/-- What the loop and the pool share: the completion ring, the loop's flag, the unread pokes on the
completion channel, the slots the loop has submitted (`offloaded`) and those of them no thread has
taken yet. -/
structure Mem where
  done : Traced
  parked : Bool
  pokes : Nat
  offloaded : Finset Nat
  waiting : Finset Nat

def Mem.init : Mem := ⟨⟨Ring.init, [], []⟩, true, 0, ∅, ∅⟩

/-! ## The calls -/

/-- A pool thread runs a job and completes it. The loop submits one, waits, takes a poke off the
channel, or takes a completion off the ring. -/
inductive Op where
  | run (slot : Nat)
  | submit (slot : Nat)
  | wait
  | recv
  | drain

def Op.byLoop : Op → Bool
  | .run _ => false
  | _ => true

inductive Pc where
  | take (slot : Nat)
  | push (slot tries : Nat) (pc : Ring.Pc)
  | flag
  | poke
  | submit (slot : Nat)
  | raise
  | check (pc : Ring.Pc)
  | blocked
  | lower
  | recv
  | drain (pc : Ring.Pc)
  | finish (out : Int)

def Pc.byLoop : Pc → Bool
  | .take _ => false
  | .push _ _ _ => false
  | .flag => false
  | .poke => false
  | _ => true

def Pc.start : Op → Pc
  | .run slot => .take slot
  | .submit slot => .submit slot
  | .wait => .raise
  | .recv => .recv
  | .drain => .drain (Ring.Pc.start .pop)

/-- `for _ in range(64): if self.done_ring.push(slot): break`, then the flag. -/
def pushBehind (slot tries : Nat) : Next Ring.Pc Ring.Res → Next Pc Unit
  | .goto pc => .goto (.push slot tries pc)
  | .ret (.pushed true) => .goto .flag
  | .ret _ =>
    match tries with
    | 0 => .goto .flag
    | tries + 1 => .goto (.push slot tries (Ring.Pc.start (.push slot)))

/-- `if st.offload.done_pending()`. -/
def checkBehind : Next Ring.Pc Ring.Res → Next Pc Unit
  | .goto pc => .goto (.check pc)
  | .ret (.isEmpty true) => .goto .blocked
  | .ret _ => .goto .lower

/-- `self.done_ring.pop(slot)`. -/
def drainBehind : Next Ring.Pc Ring.Res → Next Pc Unit
  | .goto pc => .goto (.drain pc)
  | .ret (.popped (some out)) => .goto (.finish out)
  | .ret _ => .ret ()

/-- One access to the completion ring. -/
def access (m : Mem) (pc : Ring.Pc) (behind : Next Ring.Pc Ring.Res → Next Pc Unit) :
    Mem × Next Pc Unit :=
  let step := (Ring.program doneSize).advance m.done pc
  ({ m with done := step.1 }, behind step.2)

def advance (m : Mem) : Pc → Mem × Next Pc Unit
  | .take slot =>
    if slot ∈ m.waiting then
      ({ m with waiting := m.waiting.erase slot }, .goto (.push slot 63 (Ring.Pc.start (.push slot))))
    else (m, .ret ())
  | .push slot tries pc => access m pc (pushBehind slot tries)
  | .flag => (m, if m.parked then .goto .poke else .ret ())
  | .poke => ({ m with pokes := m.pokes + 1 }, .ret ())
  | .submit slot =>
    -- `accepting()`, and a slot whose request is out is not read for another
    if m.offloaded.card < maxInflight ∧ slot ∉ m.offloaded then
      ({ m with offloaded := insert slot m.offloaded, waiting := insert slot m.waiting }, .ret ())
    else (m, .ret ())
  | .raise => ({ m with parked := true }, .goto (.check (Ring.Pc.start .isEmpty)))
  | .check pc => access m pc checkBehind
  -- whatever ends the wait: a poke, another event, the timeout
  | .blocked => (m, .goto .lower)
  | .lower => ({ m with parked := false }, .ret ())
  | .recv => ({ m with pokes := m.pokes - 1 }, .ret ())
  | .drain pc => access m pc drainBehind
  | .finish out => ({ m with offloaded := m.offloaded.erase out.toNat }, .ret ())

def program : Program Mem Pc Op Unit := ⟨Pc.start, advance⟩

/-- The loop's calls are the loop's, the others the pool threads'. -/
def may {T : Type} [DecidableEq T] (loop t : T) (op : Op) : Bool := op.byLoop == decide (t = loop)

/-! ## The ring among it -/

/-- The access to the completion ring a point is about to make. -/
def Pc.access : Pc → Option Ring.Pc
  | .push _ _ pc => some pc
  | .check pc => some pc
  | .drain pc => some pc
  | _ => none

/-- Behind an access of the ring a thread goes on with its call, or is at a new start. -/
structure Behind (behind : Next Ring.Pc Ring.Res → Next Pc Unit) : Prop where
  goto : ∀ p, ∃ pc, behind (.goto p) = .goto pc ∧ pc.access = some p
  ret : ∀ res, Ring.Fresh ((behind (.ret res)).point.bind Pc.access)

theorem behind_push (slot tries : Nat) : Behind (pushBehind slot tries) := by
  refine ⟨fun _ => ⟨_, rfl, rfl⟩, fun res => ?_⟩
  have hagain : Ring.Fresh ((pushBehind slot tries (.ret (.pushed false))).point.bind Pc.access) := by
    cases tries with
    | zero => exact Ring.fresh_none
    | succ tries => exact Ring.fresh_start (.push slot)
  cases res with
  | pushed ok =>
    cases ok with
    | true => exact Ring.fresh_none
    | false => exact hagain
  | _ => exact hagain

theorem behind_check : Behind checkBehind := by
  refine ⟨fun _ => ⟨_, rfl, rfl⟩, fun res => ?_⟩
  cases res with
  | isEmpty empty => cases empty <;> exact Ring.fresh_none
  | _ => exact Ring.fresh_none

theorem behind_drain : Behind drainBehind := by
  refine ⟨fun _ => ⟨_, rfl, rfl⟩, fun res => ?_⟩
  cases res with
  | popped out => cases out <;> exact Ring.fresh_none
  | _ => exact Ring.fresh_none

/-- **What a step is**: an access to the ring, or a step that leaves it alone. -/
theorem advance_cases (m : Mem) (pc : Pc) :
    (∃ p behind, pc.access = some p ∧ Behind behind ∧ advance m pc = access m p behind) ∨
    (pc.access = none ∧ (advance m pc).1.done = m.done ∧
      Ring.Fresh ((advance m pc).2.point.bind Pc.access)) := by
  cases pc with
  | push slot tries p => exact Or.inl ⟨p, _, rfl, behind_push slot tries, rfl⟩
  | check p => exact Or.inl ⟨p, _, rfl, behind_check, rfl⟩
  | drain p => exact Or.inl ⟨p, _, rfl, behind_drain, rfl⟩
  | take slot =>
    refine Or.inr ⟨rfl, ?_⟩
    simp only [advance]
    split
    · exact ⟨rfl, Ring.fresh_start (.push slot)⟩
    · exact ⟨rfl, Ring.fresh_none⟩
  | flag =>
    refine Or.inr ⟨rfl, rfl, ?_⟩
    simp only [advance]
    split <;> exact Ring.fresh_none
  | submit slot =>
    refine Or.inr ⟨rfl, ?_⟩
    simp only [advance]
    split <;> exact ⟨rfl, Ring.fresh_none⟩
  | raise => exact Or.inr ⟨rfl, rfl, Ring.fresh_start .isEmpty⟩
  | poke | blocked | lower | recv | finish => exact Or.inr ⟨rfl, rfl, Ring.fresh_none⟩

/-- **The completion ring is accessed by the ring's calls only.** -/
def hosted : Ring.Hosted doneSize program where
  ring m := m.done
  access := Pc.access
  start op := by
    cases op with
    | drain => exact Ring.fresh_start .pop
    | _ => exact Ring.fresh_none
  quiet m pc h := by
    rcases advance_cases m pc with ⟨p, behind, hacc, -, -⟩ | ⟨-, hmem, hfresh⟩
    · rw [h] at hacc
      cases hacc
    · exact ⟨hmem, hfresh⟩
  step m pc p h := by
    rcases advance_cases m pc with ⟨q, behind, hacc, hbehind, hadv⟩ | ⟨hacc, -, -⟩
    · obtain rfl := Option.some.inj (h.symm.trans hacc)
      show (advance m pc).1.done = _ ∧ Ring.Follows _ ((advance m pc).2.point.bind Pc.access)
      rw [hadv]
      refine ⟨rfl, ?_⟩
      unfold access
      dsimp only
      generalize ((Ring.program doneSize).advance m.done p).2 = nx
      cases nx with
      | goto q =>
        obtain ⟨pc', hgoto, hacc'⟩ := hbehind.goto q
        rw [hgoto]
        exact hacc'
      | ret res => exact hbehind.ret res
    · rw [h] at hacc
      cases hacc

/-! ## What holds at every instant -/

abbrev State (T : Type) := Threads.State T Mem Pc

/-- The ring's call a point is in is the one its own call makes. -/
def Pc.Fits : Pc → Prop
  | .push slot _ p => p.op = .push slot
  | .check p => p.op = .isEmpty
  | .drain p => p.op = .pop
  | _ => True

/-- The points between the raising of the flag and its lowering at which the loop may block. -/
def Pc.announced : Pc → Bool
  | .check _ => true
  | .blocked => true
  | _ => false

/-- A completion is in the head cell. -/
def Published (m : Mem) : Prop :=
  m.done.ring.seq (doneSize.cell m.done.ring.head) = m.done.ring.head + 1

/-- A poke is in the channel, or a thread is about to send one or to read the flag. -/
def Coming {T : Type} (s : State T) : Prop :=
  0 < s.mem.pokes ∨ ∃ t, s.pc t = some .flag ∨ s.pc t = some .poke

structure Sound {T : Type} (loop : T) (s : State T) : Prop where
  ring : Inv doneSize (hosted.view s)
  role : ∀ t pc, s.pc t = some pc → (pc.byLoop = true ↔ t = loop)
  fits : ∀ t pc, s.pc t = some pc → pc.Fits
  raised : ∀ t pc, s.pc t = some pc → pc.announced = true → s.mem.parked = true
  head : ∀ t pc, s.pc t = some pc → pc.byLoop = true → ∀ p, pc.access = some p →
    Ring.KnowsHead s.mem.done p
  tail : ∀ t pc, s.pc t = some pc → ∀ p, pc.access = some p → Ring.KnowsTail s.mem.done p
  woken : s.pc loop = some .blocked → Published s.mem → Coming s

theorem op_goto {m : Mem} {p q : Ring.Pc}
    (h : ((Ring.program doneSize).advance m.done p).2 = .goto q) : q.op = p.op :=
  (Ring.advance_goto (Prod.ext rfl h)).1

/-- **Where a step goes**: it stays in its call, and comes to an access of the ring from the one
before or at a start. -/
theorem advance_point {m m' : Mem} {pc : Pc} {nx : Next Pc Unit} (h : advance m pc = (m', nx))
    (hfits : pc.Fits) {pc' : Pc} (hpc' : nx.point = some pc') :
    pc'.byLoop = pc.byLoop ∧ pc'.Fits ∧
      ∀ q, pc'.access = some q → (∃ op, q = Ring.Pc.start op) ∨
        ∃ p, pc.access = some p ∧ (Ring.program doneSize).advance m.done p = (m'.done, .goto q) := by
  have hmem : m' = (advance m pc).1 := (congrArg Prod.fst h).symm
  obtain rfl : (advance m pc).2 = nx := congrArg Prod.snd h
  clear h
  subst hmem
  cases pc with
  | take slot =>
    simp only [advance] at hpc' ⊢
    split at hpc'
    · cases hpc'
      exact ⟨rfl, Ring.op_start _, fun q hq => Or.inl ⟨_, (Option.some.inj hq).symm⟩⟩
    · cases hpc'
  | flag =>
    simp only [advance] at hpc' ⊢
    split at hpc' <;> cases hpc'
    exact ⟨rfl, trivial, nofun⟩
  | submit slot =>
    simp only [advance] at hpc'
    split at hpc' <;> cases hpc'
  | poke | lower | recv | finish => cases hpc'
  | raise =>
    cases hpc'
    exact ⟨rfl, rfl, fun q hq => Or.inl ⟨.isEmpty, (Option.some.inj hq).symm⟩⟩
  | blocked =>
    cases hpc'
    exact ⟨rfl, trivial, nofun⟩
  | push slot tries p =>
    simp only [advance, access] at hpc' ⊢
    cases hres : ((Ring.program doneSize).advance m.done p).2 with
    | goto q =>
      rw [hres] at hpc'
      cases hpc'
      refine ⟨rfl, (op_goto hres).trans hfits, fun q' hq' => Or.inr ⟨p, rfl, ?_⟩⟩
      obtain rfl := Option.some.inj hq'
      exact Prod.ext rfl hres
    | ret res =>
      rw [hres] at hpc'
      have hagain : ∀ {pc' : Pc}, (pushBehind slot tries (.ret (.pushed false))).point = some pc' →
          pc'.byLoop = false ∧ pc'.Fits ∧ ∀ q, pc'.access = some q → ∃ op, q = Ring.Pc.start op := by
        intro pc' hpc'
        cases tries with
        | zero =>
          cases hpc'
          exact ⟨rfl, trivial, nofun⟩
        | succ tries =>
          cases hpc'
          exact ⟨rfl, Ring.op_start _, fun q hq => ⟨_, (Option.some.inj hq).symm⟩⟩
      have hdone : pc'.byLoop = false ∧ pc'.Fits ∧
          ∀ q, pc'.access = some q → ∃ op, q = Ring.Pc.start op := by
        cases res with
        | pushed ok =>
          cases ok with
          | true =>
            cases hpc'
            exact ⟨rfl, trivial, nofun⟩
          | false => exact hagain hpc'
        | _ => exact hagain hpc'
      exact ⟨hdone.1, hdone.2.1, fun q hq => Or.inl (hdone.2.2 q hq)⟩
  | check p =>
    simp only [advance, access] at hpc' ⊢
    cases hres : ((Ring.program doneSize).advance m.done p).2 with
    | goto q =>
      rw [hres] at hpc'
      cases hpc'
      refine ⟨rfl, (op_goto hres).trans hfits, fun q' hq' => Or.inr ⟨p, rfl, ?_⟩⟩
      obtain rfl := Option.some.inj hq'
      exact Prod.ext rfl hres
    | ret res =>
      rw [hres] at hpc'
      cases res with
      | isEmpty empty =>
        cases empty <;> cases hpc' <;> exact ⟨rfl, trivial, nofun⟩
      | _ =>
        cases hpc'
        exact ⟨rfl, trivial, nofun⟩
  | drain p =>
    simp only [advance, access] at hpc' ⊢
    cases hres : ((Ring.program doneSize).advance m.done p).2 with
    | goto q =>
      rw [hres] at hpc'
      cases hpc'
      refine ⟨rfl, (op_goto hres).trans hfits, fun q' hq' => Or.inr ⟨p, rfl, ?_⟩⟩
      obtain rfl := Option.some.inj hq'
      exact Prod.ext rfl hres
    | ret res =>
      rw [hres] at hpc'
      cases res with
      | popped out =>
        cases out <;> cases hpc'
        exact ⟨rfl, trivial, nofun⟩
      | _ => cases hpc'

/-- **What a pool thread's step leaves alone**: the flag, the pokes already sent, the head. -/
theorem advance_pool {m m' : Mem} {pc : Pc} {nx : Next Pc Unit} (h : advance m pc = (m', nx))
    (hfits : pc.Fits) (hpool : pc.byLoop = false) :
    m'.parked = m.parked ∧ m.pokes ≤ m'.pokes ∧ m'.done.ring.head = m.done.ring.head := by
  obtain rfl : (advance m pc).1 = m' := congrArg Prod.fst h
  cases pc with
  | take slot =>
    simp only [advance]
    split <;> exact ⟨rfl, le_rfl, rfl⟩
  | push slot tries p =>
    have hop : p.op ≠ .pop := by
      rw [show p.op = .push slot from hfits]
      nofun
    exact ⟨rfl, le_rfl, Ring.head_of_op hop⟩
  | flag => exact ⟨rfl, le_rfl, rfl⟩
  | poke => exact ⟨rfl, Nat.le_succ _, rfl⟩
  | _ => cases hpool

theorem advance_tail {m m' : Mem} {pc : Pc} {nx : Next Pc Unit} (h : advance m pc = (m', nx)) :
    m.done.ring.tail ≤ m'.done.ring.tail := by
  obtain rfl : (advance m pc).1 = m' := congrArg Prod.fst h
  rcases advance_cases m pc with ⟨p, behind, -, -, hadv⟩ | ⟨-, hmem, -⟩
  · rw [hadv]
    exact Ring.tail_le_advance
  · rw [hmem]

/-- The flag is up wherever the loop may block. -/
theorem advance_raised {m m' : Mem} {pc : Pc} {nx : Next Pc Unit} (h : advance m pc = (m', nx))
    (hraised : pc.announced = true → m.parked = true) {pc' : Pc} (hpc' : nx.point = some pc')
    (hann : pc'.announced = true) : m'.parked = true := by
  obtain rfl : (advance m pc).1 = m' := congrArg Prod.fst h
  obtain rfl : (advance m pc).2 = nx := congrArg Prod.snd h
  cases pc with
  | raise => rfl
  | check p => exact hraised rfl
  | take slot =>
    simp only [advance] at hpc'
    split at hpc' <;> cases hpc'
    cases hann
  | flag =>
    simp only [advance] at hpc'
    split at hpc' <;> cases hpc'
    cases hann
  | submit slot =>
    simp only [advance] at hpc'
    split at hpc' <;> cases hpc'
  | blocked =>
    cases hpc'
    cases hann
  | poke | lower | recv | finish => cases hpc'
  | push slot tries p =>
    simp only [advance, access] at hpc'
    generalize ((Ring.program doneSize).advance m.done p).2 = nx at hpc'
    unfold pushBehind at hpc'
    repeat' split at hpc'
    all_goals cases hpc'
    all_goals cases hann
  | drain p =>
    simp only [advance, access] at hpc'
    generalize ((Ring.program doneSize).advance m.done p).2 = nx at hpc'
    unfold drainBehind at hpc'
    repeat' split at hpc'
    all_goals cases hpc'
    all_goals cases hann

/-- **A completion comes to the head by its thread's last access of the ring**, and that thread
reads the flag next. -/
theorem advance_publishes {m m' : Mem} {pc : Pc} {nx : Next Pc Unit} (h : advance m pc = (m', nx))
    (hfits : pc.Fits) (hpool : pc.byLoop = false) (hpub : Published m') :
    Published m ∨ nx.point = some .flag := by
  have hhead := (advance_pool h hfits hpool).2.2
  obtain rfl : (advance m pc).1 = m' := congrArg Prod.fst h
  obtain rfl : (advance m pc).2 = nx := congrArg Prod.snd h
  unfold Published at hpub ⊢
  rw [hhead] at hpub
  cases pc with
  | take slot =>
    simp only [advance] at hpub
    split at hpub <;> exact Or.inl hpub
  | flag | poke => exact Or.inl hpub
  | push slot tries p =>
    have hop : p.op = .push slot := hfits
    cases p with
    | pushPublish value pos => exact Or.inr rfl
    | pushSeq value pos =>
      simp only [advance, access, Ring.program, Ring.advance] at hpub
      repeat' split at hpub
      all_goals exact Or.inl hpub
    | pushExchange value pos =>
      simp only [advance, access, Ring.program, Ring.advance] at hpub
      split at hpub <;> exact Or.inl hpub
    | pushLoad | pushWrite => exact Or.inl hpub
    | _ => cases hop
  | _ => cases hpool

/-- **The loop blocks when nothing is at the head.** -/
theorem advance_blocks {m m' : Mem} {pc : Pc} {nx : Next Pc Unit} (h : advance m pc = (m', nx))
    (hfits : pc.Fits) (hhead : ∀ p, pc.access = some p → Ring.KnowsHead m.done p)
    (hblocked : nx.point = some .blocked) : ¬ Published m' := by
  obtain rfl : (advance m pc).1 = m' := congrArg Prod.fst h
  obtain rfl : (advance m pc).2 = nx := congrArg Prod.snd h
  cases pc with
  | check p =>
    simp only [advance, access] at hblocked
    cases hres : ((Ring.program doneSize).advance m.done p).2 with
    | goto q =>
      rw [hres] at hblocked
      cases hblocked
    | ret res =>
      rw [hres] at hblocked
      have hempty : Ring.Hosted.SaysEmpty res := by
        cases res with
        | isEmpty empty =>
          cases empty with
          | true => rfl
          | false => cases hblocked
        | _ => cases hblocked
      obtain ⟨pos, hlook, hseq⟩ :=
        Ring.Hosted.looking_of_empty (s := (⟨m.done, fun _ => none⟩ : Ring.State Unit)) hres hempty
      have hop : p.op = .isEmpty := hfits
      cases p with
      | isEmptySeq pos' =>
        cases hlook
        have hat : m.done.ring.head = pos := hhead _ rfl pos rfl
        intro hpub
        have hpub' : m.done.ring.seq (doneSize.cell m.done.ring.head) = m.done.ring.head + 1 := hpub
        rw [hat] at hpub'
        exact hseq hpub'
      | peekSeq pos' => cases hop
      | _ => cases hlook
  | take slot =>
    simp only [advance] at hblocked
    split at hblocked <;> cases hblocked
  | flag =>
    simp only [advance] at hblocked
    split at hblocked <;> cases hblocked
  | submit slot =>
    simp only [advance] at hblocked
    split at hblocked <;> cases hblocked
  | push slot tries p =>
    simp only [advance, access] at hblocked
    generalize ((Ring.program doneSize).advance m.done p).2 = nx at hblocked
    unfold pushBehind at hblocked
    repeat' split at hblocked
    all_goals cases hblocked
  | drain p =>
    simp only [advance, access] at hblocked
    generalize ((Ring.program doneSize).advance m.done p).2 = nx at hblocked
    unfold drainBehind at hblocked
    repeat' split at hblocked
    all_goals cases hblocked
  | poke | raise | blocked | lower | recv | finish => cases hblocked

variable {T : Type} [DecidableEq T] {loop : T}

/-- **A poke that is coming stays so until it is in the channel**, while the flag is up. -/
theorem coming_step {s : State T} {t : T} {pc : Pc} {m' : Mem} {nx : Next Pc Unit}
    (hpc : s.pc t = some pc) (h : advance s.mem pc = (m', nx)) (hfits : pc.Fits)
    (hpool : pc.byLoop = false) (hparked : s.mem.parked = true) (hcoming : Coming s) :
    Coming (s.move t m' nx.point) := by
  rcases hcoming with hpokes | ⟨u, hu⟩
  · exact Or.inl (hpokes.trans_le (advance_pool h hfits hpool).2.1)
  · rcases eq_or_ne u t with rfl | hne
    · rw [hpc] at hu
      rcases hu with heq | heq
      · -- it reads the flag, which is up
        obtain rfl := Option.some.inj heq
        have hnx : nx = .goto .poke := by
          rw [← show (advance s.mem .flag).2 = nx from congrArg Prod.snd h]
          exact if_pos hparked
        refine Or.inr ⟨u, Or.inr ?_⟩
        rw [s.move_pc_self, hnx]
        rfl
      · obtain rfl := Option.some.inj heq
        have hpokes : m'.pokes = s.mem.pokes + 1 := by
          rw [← show (advance s.mem .poke).1 = m' from congrArg Prod.fst h]
          rfl
        refine Or.inl ?_
        rw [s.move_mem, hpokes]
        exact Nat.succ_pos _
    · refine Or.inr ⟨u, ?_⟩
      rw [s.move_pc_of_ne _ _ hne]
      exact hu

omit [DecidableEq T] in
theorem sound_init (loop : T) : Sound loop (⟨Mem.init, fun _ => none⟩ : State T) where
  ring := Ring.inv_init doneSize
  role := fun _ _ h => nomatch h
  fits := fun _ _ h => nomatch h
  raised := fun _ _ h => nomatch h
  head := fun _ _ h => nomatch h
  tail := fun _ _ h => nomatch h
  woken := fun h => nomatch h

theorem Sound.call {s : State T} (h : Sound loop s) {t : T} {op : Op} (hidle : s.pc t = none)
    (hmay : may loop t op = true) : Sound loop (s.move t s.mem (some (Pc.start op))) := by
  have hloop : op.byLoop = true ↔ t = loop := by
    unfold may at hmay
    rw [beq_iff_eq] at hmay
    rw [hmay, decide_eq_true_iff]
  have hfresh : ∀ p, (Pc.start op).access = some p → ∃ o, p = Ring.Pc.start o :=
    hosted.start op
  have hknows : ∀ p, (Pc.start op).access = some p →
      Ring.KnowsHead s.mem.done p ∧ Ring.KnowsTail s.mem.done p := by
    intro p hp
    obtain ⟨o, rfl⟩ := hfresh p hp
    cases o <;> exact ⟨nofun, nofun⟩
  have hbyLoop : (Pc.start op).byLoop = op.byLoop := by cases op <;> rfl
  refine ⟨hosted.inv_call h.ring hidle op, ?_, ?_, ?_, ?_, ?_, ?_⟩
  · refine Threads.State.forall_move (fun u p _ hu => h.role u p hu) ?_
    rintro p ⟨⟩
    rw [hbyLoop]
    exact hloop
  · refine Threads.State.forall_move (fun u p _ hu => h.fits u p hu) ?_
    rintro p ⟨⟩
    cases op <;> trivial
  · refine Threads.State.forall_move (fun u p _ hu => h.raised u p hu) ?_
    rintro p ⟨⟩ hann
    cases op <;> cases hann
  · refine Threads.State.forall_move (fun u p _ hu => h.head u p hu) ?_
    rintro p ⟨⟩ - q hq
    exact (hknows q hq).1
  · refine Threads.State.forall_move (fun u p _ hu => h.tail u p hu) ?_
    rintro p ⟨⟩ q hq
    exact (hknows q hq).2
  · intro hblocked hpub
    rcases eq_or_ne loop t with rfl | hne
    · rw [s.move_pc_self] at hblocked
      cases op <;> cases hblocked
    · rw [s.move_pc_of_ne _ _ hne] at hblocked
      rcases h.woken hblocked hpub with hpokes | ⟨u, hu⟩
      · exact Or.inl hpokes
      · have hut : u ≠ t := by
          rintro rfl
          rw [hidle] at hu
          rcases hu with hu | hu <;> cases hu
        exact Or.inr ⟨u, by rw [s.move_pc_of_ne _ _ hut]; exact hu⟩

theorem Sound.step {s : State T} (h : Sound loop s) {t : T} {pc : Pc} {m' : Mem} {nx : Next Pc Unit}
    (hpc : s.pc t = some pc) (hadv : advance s.mem pc = (m', nx)) :
    Sound loop (s.move t m' nx.point) := by
  have hfits := h.fits t pc hpc
  have hrole := h.role t pc hpc
  -- another thread's point is the loop's only when this one is a pool thread
  have hpool : ∀ u p, u ≠ t → s.pc u = some p → p.byLoop = true → pc.byLoop = false := by
    intro u p hne hu hp
    have huloop := (h.role u p hu).mp hp
    cases hbl : pc.byLoop with
    | false => rfl
    | true => exact absurd (huloop.trans (hrole.mp hbl).symm) hne
  refine ⟨hosted.inv_advance h.ring hpc hadv, ?_, ?_, ?_, ?_, ?_, ?_⟩
  · refine Threads.State.forall_move (fun u p _ hu => h.role u p hu) fun p hp => ?_
    rw [(advance_point hadv hfits hp).1]
    exact hrole
  · refine Threads.State.forall_move (fun u p _ hu => h.fits u p hu) fun p hp => ?_
    exact (advance_point hadv hfits hp).2.1
  · refine Threads.State.forall_move ?_ fun p hp => ?_
    · intro u p hne hu hann
      have hbl : p.byLoop = true := by cases p <;> first | rfl | cases hann
      rw [s.move_mem, (advance_pool hadv hfits (hpool u p hne hu hbl)).1]
      exact h.raised u p hu hann
    · exact advance_raised hadv (h.raised t pc hpc) hp
  · refine Threads.State.forall_move ?_ fun p hp hbl q hq => ?_
    · intro u p hne hu hbl q hq n hn
      rw [s.move_mem, (advance_pool hadv hfits (hpool u p hne hu hbl)).2.2]
      exact h.head u p hu hbl q hq n hn
    · obtain ⟨hbl', -, hgoto⟩ := advance_point hadv hfits hp
      rcases hgoto q hq with ⟨op, rfl⟩ | ⟨q₀, hq₀, hstep⟩
      · cases op <;> exact nofun
      · exact Ring.knowsHead_goto (h.head t pc hpc (hbl'.symm.trans hbl) q₀ hq₀) hstep
  · refine Threads.State.forall_move ?_ fun p hp q hq => ?_
    · intro u p hne hu q hq n hn
      exact (h.tail u p hu q hq n hn).trans (advance_tail hadv)
    · rcases (advance_point hadv hfits hp).2.2 q hq with ⟨op, rfl⟩ | ⟨q₀, hq₀, hstep⟩
      · cases op <;> exact nofun
      · exact Ring.knowsTail_goto (h.tail t pc hpc q₀ hq₀) hstep
  · intro hblocked hpub
    rcases eq_or_ne loop t with rfl | hne
    · rw [s.move_pc_self] at hblocked
      have hbl := hrole.mpr rfl
      exact absurd hpub (advance_blocks hadv hfits (h.head loop pc hpc hbl) hblocked)
    · rw [s.move_pc_of_ne _ _ hne] at hblocked
      have hbl := hpool loop _ hne hblocked rfl
      have hparked := h.raised loop _ hblocked rfl
      rcases advance_publishes hadv hfits hbl hpub with hbefore | hflag
      · exact coming_step hpc hadv hfits hbl hparked (h.woken hblocked hbefore)
      · exact Or.inr ⟨t, Or.inl (by rw [s.move_pc_self]; exact hflag)⟩

end LoopWait

end Offload

end MojoHttp
