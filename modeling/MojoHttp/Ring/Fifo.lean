import MojoHttp.Ring.Invariant
import Mathlib.Tactic.IntervalCases

/-!
# The ring is a first-in first-out queue

What a caller sees of a ring, whatever the interleaving. A call is known by its labels: it starts
at one instant, returns at another, and its thread takes inner steps between the two.

* **`Fifo`** — what is popped is a prefix of what is pushed, within the capacity, and what is not
  popped yet is on the ring.
* **`Explained`** — the answer of a call, from the instants of the call.
* **`ring_fifo`** — all of it, for every execution.
* **`full_answer_on_an_empty_ring`** — a push may fail on a ring that is not full: a pop that has
  moved the head has not yet released its cell.
-/

namespace MojoHttp

namespace Ring

open Threads (Next Program InnerSteps ReturnsAt pc_of_call pc_of_inner entry_of_call call_of_pc)

variable {T : Type} {z : Size}

/-! ## What an instant shows -/

/-- The cell of `pos` is published with `value`. -/
def Holds (z : Size) (r : Ring) (pos : Nat) (value : Int) : Prop :=
  r.seq (z.cell pos) = pos + 1 ∧ r.val (z.cell pos) = value

/-- A push has claimed `pos` for `value` and not published it yet. -/
def BeingPushed (s : State T) (pos : Nat) (value : Int) : Prop :=
  ∃ t, s.pc t = some (.pushWrite value pos) ∨ s.pc t = some (.pushPublish value pos)

/-- The sequences are those of the counters; what is popped is a prefix of what is pushed; at most
the capacity is pushed and not popped; each of these values is on the ring or being put there. -/
structure Fifo (z : Size) (s : State T) : Prop where
  pushed_length : s.mem.pushed.length = s.mem.ring.tail
  popped_length : s.mem.popped.length = s.mem.ring.head
  order : s.mem.popped <+: s.mem.pushed
  bounded : s.mem.pushed.length ≤ s.mem.popped.length + z.capacity
  kept : ∀ pos value, s.mem.popped.length ≤ pos → s.mem.pushed[pos]? = some value →
    Holds z s.mem.ring pos value ∨ BeingPushed s pos value

/-- The ring holds as many values as it can. -/
def Full (z : Size) (s : State T) : Prop :=
  s.mem.pushed.length = s.mem.popped.length + z.capacity

/-- A pop has claimed `pos` and not released its cell yet. -/
def BeingPopped (s : State T) (pos : Nat) : Prop := ∃ t pc, s.pc t = some pc ∧ pc.popping = some pos

/-- The cell of the tail's position is in use by the value pushed there one lap before: the ring is
full, or the pop that took that value has not released the cell. -/
def TailInUse (z : Size) (s : State T) : Prop :=
  Full z s ∨ ∃ pos, s.mem.ring.tail = pos + z.capacity ∧ BeingPopped s pos

/-- No published value is at the head. -/
def NothingAtHead (z : Size) (s : State T) : Prop := ∀ value, ¬ Holds z s.mem.ring s.mem.ring.head value

theorem Inv.fifo {s : State T} (h : Inv z s) : Fifo z s := by
  have hlen : s.mem.popped.length = s.mem.ring.head := by
    rw [h.popped, List.length_take, h.pushed, Nat.min_eq_left h.head_le]
  have hwindow := h.window
  refine ⟨h.pushed, hlen, ?_, by rw [h.pushed, hlen]; exact h.window, ?_⟩
  · rw [h.popped]
    exact List.take_prefix _ _
  · intro pos value hpos hvalue
    have htail : pos < s.mem.ring.tail := h.pushed ▸ (List.getElem?_eq_some_iff.mp hvalue).1
    rw [hlen] at hpos
    obtain ⟨q, hcell, hat⟩ := h.cells _ (z.cell_le pos)
    -- the cell can be at no other position between the counters
    have hsame : q < s.mem.ring.tail → s.mem.ring.head ≤ q → q = pos := fun hq hq' =>
      z.cell_inj hcell (by omega) (by omega)
    cases hat with
    | free hseq hfree hhead =>
      have heq : q = pos := z.cell_inj hcell (by omega) (by omega)
      omega
    | writing t pc hpc hclaim =>
      have hok := h.points t pc hpc
      obtain ⟨_, hw⟩ := hok.writing hclaim
      obtain rfl := hsame hw.tail hw.head
      refine Or.inr ⟨t, ?_⟩
      cases pc <;> cases hclaim
      · have heq := hok.value.symm.trans hvalue
        exact Or.inl (Option.some.inj heq ▸ hpc)
      · have heq := hok.1.value.symm.trans hvalue
        exact Or.inr (Option.some.inj heq ▸ hpc)
    | published value' hpub =>
      obtain rfl := hsame hpub.tail hpub.head
      have heq := Option.some.inj (hpub.value.symm.trans hvalue)
      exact Or.inl ⟨hpub.seq, hpub.val.trans heq⟩
    | taking t pc hpc hclaim =>
      obtain ⟨_, ht⟩ := (h.points t pc hpc).taking hclaim
      have hhead := ht.head
      have hlap := ht.window
      have heq : q = pos := z.cell_inj hcell (by omega) (by omega)
      omega

/-- **Why a push may not go on**: the cell's sequence word is behind the tail. -/
theorem Inv.tail_in_use {s : State T} (h : Inv z s)
    (hseq : s.mem.ring.seq (z.cell s.mem.ring.tail) < s.mem.ring.tail) : TailInUse z s := by
  obtain ⟨pos, hcell, hat⟩ := h.cells _ (z.cell_le s.mem.ring.tail)
  have hpopped := h.fifo.popped_length
  have hle := h.head_le
  have hwindow := h.window
  have hcap := z.two_le_capacity
  -- whoever is at the cell is there one lap before
  have hlap : pos < s.mem.ring.tail → s.mem.ring.tail ≤ pos + z.capacity →
      s.mem.ring.tail = pos + z.capacity := fun hlt hge =>
    z.cell_inj (by rw [z.cell_add, hcell]) (by omega) (by omega)
  have hfull : s.mem.ring.head ≤ pos → s.mem.ring.tail = pos + z.capacity → Full z s := by
    intro hhead heq
    unfold Full
    rw [h.pushed, hpopped]
    omega
  cases hat with
  | free hfree htail hhead =>
    rw [hcell] at hfree
    omega
  | writing t pc hpc hclaim =>
    obtain ⟨_, hw⟩ := (h.points t pc hpc).writing hclaim
    exact Or.inl (hfull hw.head (hlap hw.tail hw.window))
  | published value hpub => exact Or.inl (hfull hpub.head (hlap hpub.tail hpub.window))
  | taking t pc hpc hclaim =>
    obtain ⟨_, ht⟩ := (h.points t pc hpc).taking hclaim
    exact Or.inr ⟨pos, hlap (ht.head.trans_le hle) ht.window, t, pc, hpc, hclaim⟩

/-! ## What the steps of a call are -/

/-- The call a point belongs to. -/
def Pc.op : Pc → Op
  | .pushLoad value => .push value
  | .pushSeq value _ => .push value
  | .pushExchange value _ => .push value
  | .pushWrite value _ => .push value
  | .pushPublish value _ => .push value
  | .popLoad => .pop
  | .popSeq _ => .pop
  | .popExchange _ => .pop
  | .popRead _ => .pop
  | .popRelease _ _ => .pop
  | .popsLoad => .pops
  | .peekLoad => .peek
  | .peekSeq _ => .peek
  | .peekRead _ => .peek
  | .isEmptyLoad => .isEmpty
  | .isEmptySeq _ => .isEmpty

theorem op_start (op : Op) : (Pc.start op).op = op := by cases op <;> rfl

/-- A step inside a call stays in it, and comes to a sequence word from its counter. -/
theorem advance_goto {m m' : Traced} {pc pc' : Pc}
    (h : (program z).advance m pc = (m', .goto pc')) :
    pc'.op = pc.op ∧ (∀ value pos, pc' = .pushSeq value pos → m.ring.tail = pos) ∧
      ∀ pos, pc' = .popSeq pos → m.ring.head = pos := by
  have hnext : (m.ring.advance z pc).2 = .goto pc' := congrArg Prod.snd h
  cases pc <;> simp only [advance] at hnext
  all_goals repeat' split at hnext
  all_goals cases hnext
  all_goals exact ⟨rfl, fun _ _ heq => by cases heq <;> rfl, fun _ heq => by cases heq <;> rfl⟩

/-- The access a result comes from. -/
def ReturnPoint (z : Size) (r : Ring) (pc : Pc) : Res → Prop
  | .pushed true => ∃ value pos, pc = .pushPublish value pos
  | .pushed false => ∃ value pos, pc = .pushSeq value pos ∧ r.seq (z.cell pos) < pos
  | .popped (some out) => ∃ pos, pc = .popRelease pos out
  | .popped none => ∃ pos, pc = .popSeq pos ∧ r.seq (z.cell pos) < pos + 1
  | .pops _ => pc.op = .pops
  | .peeked _ => pc.op = .peek
  | .isEmpty _ => pc.op = .isEmpty

theorem advance_ret {m m' : Traced} {pc : Pc} {res : Res}
    (h : (program z).advance m pc = (m', .ret res)) : ReturnPoint z m.ring pc res := by
  have hnext : (m.ring.advance z pc).2 = .ret res := congrArg Prod.snd h
  cases pc <;> simp only [advance] at hnext
  all_goals repeat' split at hnext
  all_goals cases hnext
  case pushSeq value pos hne hlt => exact ⟨value, pos, rfl, by omega⟩
  case pushPublish value pos => exact ⟨value, pos, rfl⟩
  case popSeq pos hne hlt => exact ⟨pos, rfl, by omega⟩
  case popRelease pos out => exact ⟨pos, rfl⟩
  all_goals rfl

/-! ## Executions -/

variable [DecidableEq T]

abbrev Execution (T : Type) [DecidableEq T] (z : Size) := (system T z).Execution

/-- At step `k` thread `t` moves the tail over `value`. -/
structure PushesAt (e : Execution T z) (k : Nat) (t : T) (value : Int) : Prop where
  label : e.labels[k]? = some ⟨t, .go⟩
  moves : (e.state (k + 1)).mem.pushed = (e.state k).mem.pushed ++ [value]

/-- At step `k` thread `t` moves the head over `value`. -/
structure PopsAt (e : Execution T z) (k : Nat) (t : T) (value : Int) : Prop where
  label : e.labels[k]? = some ⟨t, .go⟩
  moves : (e.state (k + 1)).mem.popped = (e.state k).mem.popped ++ [value]

variable {e : Execution T z}

/-- **What one label did.** -/
theorem effect_of_label {k : Nat} {l : Threads.Label T Op Res} (hl : e.labels[k]? = some l) :
    (e.state (k + 1)).mem = (e.state k).mem ∨
      ∃ pc, (e.state k).pc l.thread = some pc ∧
        Effect z (e.state k).mem pc (e.state (k + 1)).mem ((e.state (k + 1)).pc l.thread) := by
  obtain ⟨t, act⟩ := l
  cases act with
  | call op =>
    obtain ⟨-, hs⟩ := Program.next_call (e.steps hl)
    exact Or.inl (by rw [hs]; rfl)
  | go =>
    obtain ⟨pc, pc', m', hpc, hadv, hs⟩ := Program.next_go (e.steps hl)
    have heff := effect_advance z (e.state k).mem pc
    rw [hadv] at heff
    refine Or.inr ⟨pc, hpc, ?_⟩
    rw [hs, Threads.State.move_mem, Threads.State.move_pc_self]
    exact heff
  | ret res =>
    obtain ⟨pc, m', hpc, hadv, hs⟩ := Program.next_ret (e.steps hl)
    have heff := effect_advance z (e.state k).mem pc
    rw [hadv] at heff
    refine Or.inr ⟨pc, hpc, ?_⟩
    rw [hs, Threads.State.move_mem, Threads.State.move_pc_self]
    exact heff

/-- No access lowers a sequence word or takes a pushed value back. -/
theorem Effect.mono {m m' : Traced} {pc : Pc} {pc' : Option Pc} (hok : PointOk z m pc)
    (h : Effect z m pc m' pc') : m.ring.seq ≤ m'.ring.seq ∧ m.pushed <+: m'.pushed := by
  cases h with
  | read | write | claimHead | take => exact ⟨le_rfl, List.prefix_rfl⟩
  | claimTail value pos htail => exact ⟨le_rfl, List.prefix_append _ _⟩
  | publish value pos => exact ⟨seq_le_update (hok.1.seq.le.trans (Nat.le_succ pos)), List.prefix_rfl⟩
  | release pos out =>
    have hseq := hok.seq
    have hcap := z.two_le_capacity
    exact ⟨seq_le_update (by omega), List.prefix_rfl⟩

/-- Sequence words only grow, and what is pushed stays pushed. -/
theorem mono_of_le {i j : Nat} (hij : i ≤ j) (hj : j ≤ e.labels.length) :
    (e.state i).mem.ring.seq ≤ (e.state j).mem.ring.seq ∧
      (e.state i).mem.pushed <+: (e.state j).mem.pushed := by
  refine LabelledSystem.Execution.stays (P := fun s : State T =>
    (e.state i).mem.ring.seq ≤ s.mem.ring.seq ∧ (e.state i).mem.pushed <+: s.mem.pushed)
    hij hj ⟨le_rfl, List.prefix_rfl⟩ ?_
  intro k l _ hkj hl ⟨hseq, hpushed⟩
  rcases effect_of_label hl with hm | ⟨pc, hpc, heff⟩
  · rw [hm]
    exact ⟨hseq, hpushed⟩
  · have hstep := heff.mono ((inv_of_execution e k (by omega)).points _ pc hpc)
    exact ⟨hseq.trans hstep.1, hpushed.trans hstep.2⟩

/-! ## Claims and calls -/

/-- An access that moves a counter is a claim, and its thread claims nothing else before it is
done. -/
theorem Effect.moves {m m' : Traced} {pc : Pc} {pc' : Option Pc} (h : Effect z m pc m' pc') :
    (m'.pushed = m.pushed ∨ ∃ value pos, pc = .pushExchange value pos ∧
        pc' = some (.pushWrite value pos) ∧ m'.pushed = m.pushed ++ [value]) ∧
      (m'.popped = m.popped ∨ ∃ pos, pc = .popExchange pos ∧ pc' = some (.popRead pos) ∧
        m'.popped = m.popped ++ [m'.ring.val (z.cell pos)]) := by
  cases h with
  | read | write | publish | take | release => exact ⟨Or.inl rfl, Or.inl rfl⟩
  | claimTail value pos htail => exact ⟨Or.inr ⟨value, pos, rfl, rfl, rfl⟩, Or.inl rfl⟩
  | claimHead pos hhead => exact ⟨Or.inl rfl, Or.inr ⟨pos, rfl, rfl, rfl⟩⟩

/-- The access that claims `pos`. -/
theorem Effect.claim {m m' : Traced} {pc pc' : Pc} {pos : Nat} (h : Effect z m pc m' (some pc'))
    (hbefore : pc.claimed ≠ some pos) (hafter : pc'.claimed = some pos) :
    (∃ value, pc = .pushExchange value pos ∧ m'.pushed = m.pushed ++ [value]) ∨
      (pc = .popExchange pos ∧ m'.popped = m.popped ++ [m'.ring.val (z.cell pos)]) := by
  cases h with
  | read pc pc' hpc hpc' =>
    rw [(hpc' _ rfl).1] at hafter
    cases hafter
  | claimTail value pos htail =>
    cases hafter
    exact Or.inl ⟨value, rfl, rfl⟩
  | claimHead pos hhead =>
    cases hafter
    exact Or.inr ⟨rfl, rfl⟩
  | write value pos => exact absurd hafter hbefore
  | take pos => exact absurd hafter hbefore

theorem effect_of_goto {m m' : Traced} {pc pc' : Pc}
    (h : (program z).advance m pc = (m', .goto pc')) : Effect z m pc m' (some pc') := by
  have heff := effect_advance z m pc
  rw [h] at heff
  exact heff

theorem claimed_goto {m m' : Traced} {pc pc' : Pc} {pos : Nat} (hclaim : pc.claimed = some pos)
    (h : (program z).advance m pc = (m', .goto pc')) : pc'.claimed = some pos := by
  cases effect_of_goto h with
  | read pc pc' hpc hpc' =>
    rw [hpc] at hclaim
    cases hclaim
  | claimTail => cases hclaim
  | claimHead => cases hclaim
  | write => exact hclaim
  | take => exact hclaim

/-- A claim lasts until its call returns. -/
theorem claimed_until {k j : Nat} {t : T} {pc : Pc} {pos : Nat} (hinner : InnerSteps e t k j)
    (hpc : (e.state (k + 1)).pc t = some pc) (hclaim : pc.claimed = some pos) {m : Nat}
    (hkm : k < m) (hmj : m ≤ j) (hm : m ≤ e.labels.length) :
    ∃ pc', (e.state m).pc t = some pc' ∧ pc'.claimed = some pos ∧ pc'.op = pc.op := by
  refine pc_of_inner (Q := fun p => p.claimed = some pos ∧ p.op = pc.op) ⟨pc, hpc, hclaim, rfl⟩ ?_
    hinner hkm hmj hm
  exact fun _ p _ p' hq hadv => ⟨claimed_goto hq.1 hadv, (advance_goto hadv).1.trans hq.2⟩

/-- Step `k` is a claim of thread `t`. -/
def ClaimsAt (e : Execution T z) (k : Nat) (t : T) : Prop :=
  (∃ pc, (e.state k).pc t = some pc ∧ pc.claimed = none) ∧
    ∃ pc pos, (e.state (k + 1)).pc t = some pc ∧ pc.claimed = some pos

/-- **A call claims once.** -/
theorem claim_unique {i j k k' : Nat} {t : T} (hinner : InnerSteps e t i j)
    (hj : j ≤ e.labels.length) (hik : i < k) (hkj : k < j) (hik' : i < k') (hkj' : k' < j)
    (h : ClaimsAt e k t) (h' : ClaimsAt e k' t) : k = k' := by
  have hlater : ∀ {a b : Nat}, i < a → a < b → b < j → ClaimsAt e a t → ¬ ClaimsAt e b t := by
    rintro a b hia hab hbj ⟨-, pc, pos, hpc, hclaim⟩ ⟨⟨pc₀, hpc₀, hfree⟩, -⟩
    obtain ⟨pc', hpc', hclaim', -⟩ := claimed_until (j := j)
      (fun m act ham hmj => hinner m act (by omega) hmj) hpc hclaim hab hbj.le (by omega)
    obtain rfl := Option.some.inj (hpc₀.symm.trans hpc')
    rw [hfree] at hclaim'
    cases hclaim'
  rcases Nat.lt_trichotomy k k' with hlt | heq | hgt
  · exact absurd h' (hlater hik hlt hkj' h)
  · exact heq
  · exact absurd h (hlater hik' hgt hkj h')

theorem PushesAt.spec {k : Nat} {t : T} {value : Int} (h : PushesAt e k t value) :
    ∃ pos, (e.state k).pc t = some (.pushExchange value pos) ∧
      (e.state (k + 1)).pc t = some (.pushWrite value pos) := by
  have hmoves := h.moves
  rcases effect_of_label h.label with hm | ⟨pc, hpc, heff⟩
  · rw [hm] at hmoves
    simp at hmoves
  · rcases heff.moves.1 with hsame | ⟨value', pos, rfl, hpc', hpushed⟩
    · rw [hsame] at hmoves
      simp at hmoves
    · have hvalue : value' = value := by simpa using hpushed.symm.trans hmoves
      subst hvalue
      exact ⟨pos, hpc, hpc'⟩

theorem PopsAt.spec {k : Nat} {t : T} {value : Int} (h : PopsAt e k t value) :
    ∃ pos, (e.state k).pc t = some (.popExchange pos) ∧
      (e.state (k + 1)).pc t = some (.popRead pos) ∧
      (e.state (k + 1)).mem.pushed[pos]? = some value := by
  have hmoves := h.moves
  rcases effect_of_label h.label with hm | ⟨pc, hpc, heff⟩
  · rw [hm] at hmoves
    simp at hmoves
  · rcases heff.moves.2 with hsame | ⟨pos, rfl, hpc', hpopped⟩
    · rw [hsame] at hmoves
      simp at hmoves
    · have hvalue : (e.state (k + 1)).mem.ring.val (z.cell pos) = value := by
        simpa using hpopped.symm.trans hmoves
      have hok : Taking z (e.state (k + 1)).mem pos _ := (inv_of_execution e (k + 1)
        (LabelledSystem.Execution.lt_length h.label)).points t _ hpc'
      rw [hvalue] at hok
      exact ⟨pos, hpc, hpc', hok.value⟩

theorem PushesAt.claims {k : Nat} {t : T} {value : Int} (h : PushesAt e k t value) :
    ClaimsAt e k t := by
  obtain ⟨pos, hpc, hpc'⟩ := h.spec
  exact ⟨⟨_, hpc, rfl⟩, _, pos, hpc', rfl⟩

theorem PopsAt.claims {k : Nat} {t : T} {value : Int} (h : PopsAt e k t value) :
    ClaimsAt e k t := by
  obtain ⟨pos, hpc, hpc', -⟩ := h.spec
  exact ⟨⟨_, hpc, rfl⟩, _, pos, hpc', rfl⟩

/-- A pop's value stays where it was pushed. -/
theorem PopsAt.value_at {k j : Nat} {t : T} {value : Int} (h : PopsAt e k t value) {pos : Nat}
    (hpc : (e.state k).pc t = some (.popExchange pos)) (hkj : k < j) (hj : j ≤ e.labels.length) :
    (e.state j).mem.pushed[pos]? = some value := by
  obtain ⟨pos', hat, -, hvalue⟩ := h.spec
  obtain rfl : pos = pos' := by simpa using hpc.symm.trans hat
  obtain ⟨rest, hrest⟩ := (mono_of_le (e := e) (show k + 1 ≤ j from hkj) hj).2
  rw [← hrest, List.getElem?_append_left (List.getElem?_eq_some_iff.mp hvalue).1]
  exact hvalue

/-- The points of a call are its own. -/
theorem op_of_call {i j : Nat} {t : T} {op : Op} (hcall : e.labels[i]? = some ⟨t, .call op⟩)
    (hinner : InnerSteps e t i j) {k : Nat} (hik : i < k) (hkj : k ≤ j) (hk : k ≤ e.labels.length) :
    ∃ pc, (e.state k).pc t = some pc ∧ pc.op = op :=
  pc_of_call hcall (op_start op)
    (fun _ _ _ _ hop hadv => (advance_goto hadv).1.trans hop) hinner hik hkj hk

/-- **A call that returns behind a claim made it**: a push over its value, a pop over the value at
the position it has claimed. -/
theorem claim_of_call {i j : Nat} {t : T} {op : Op} {pcj : Pc} {pos : Nat}
    (hcall : e.labels[i]? = some ⟨t, .call op⟩) (hinner : InnerSteps e t i j) (hij : i < j)
    (hj : j ≤ e.labels.length) (hpcj : (e.state j).pc t = some pcj)
    (hclaim : pcj.claimed = some pos) :
    ∃ k, i < k ∧ k < j ∧ ((∃ value, op = .push value ∧ PushesAt e k t value) ∨
      (op = .pop ∧ ∃ value, PopsAt e k t value ∧ (e.state j).mem.pushed[pos]? = some value)) := by
  have hstart : ¬ (Pc.start op).claimed = some pos := by
    rw [(Pc.start_ready z init op).1]
    exact nofun
  obtain ⟨k, pc, pc', hik, hkj, hl, hpc, hbefore, hadv, hafter, hpc', -⟩ :=
    entry_of_call (Q := fun pc => pc.claimed = some pos) hcall hstart hinner hij hj hpcj hclaim
  obtain ⟨pc₀, hpc₀, hop⟩ := op_of_call hcall hinner hik hkj.le (by omega)
  obtain rfl := Option.some.inj (hpc.symm.trans hpc₀)
  refine ⟨k, hik, hkj, ?_⟩
  rcases (effect_of_goto hadv).claim hbefore hafter with ⟨value, rfl, hpushed⟩ | ⟨rfl, hpopped⟩
  · exact Or.inl ⟨value, hop.symm, hl, hpushed⟩
  · have hpops : PopsAt e k t _ := ⟨hl, hpopped⟩
    exact Or.inr ⟨hop.symm, _, hpops, hpops.value_at hpc hkj hj⟩

/-! ## What a call returned -/

/-- A call that returns behind a claim succeeds. -/
theorem ReturnPoint.claimed {r : Ring} {pc : Pc} {res : Res} {pos : Nat}
    (h : ReturnPoint z r pc res) (hclaim : pc.claimed = some pos) :
    (∃ value, res = .pushed true ∧ pc = .pushPublish value pos) ∨
      ∃ out, res = .popped (some out) ∧ pc = .popRelease pos out := by
  cases pc <;> cases hclaim
  all_goals cases res with
    | pushed ok => cases ok <;> simp_all [ReturnPoint]
    | popped out => cases out <;> simp_all [ReturnPoint]
    | pops count => cases h
    | peeked out => cases h
    | isEmpty empty => cases h

/-- The answer of a call, from the instants of the call. -/
def Explained (e : Execution T z) (t : T) (i j : Nat) : Op → Res → Prop
  | .push value, .pushed true => ∃! k, (i < k ∧ k < j) ∧ PushesAt e k t value
  | .push _, .pushed false =>
    (∀ k value, i < k → k < j → ¬ PushesAt e k t value) ∧
      ∃ k, i < k ∧ k < j ∧ TailInUse z (e.state k)
  | .pop, .popped (some out) => ∃! k, (i < k ∧ k < j) ∧ PopsAt e k t out
  | .pop, .popped none =>
    (∀ k value, i < k → k < j → ¬ PopsAt e k t value) ∧
      ∃ k, i < k ∧ k < j ∧ NothingAtHead z (e.state k)
  | .pops, .pops _ => True
  | .peek, .peeked _ => True
  | .isEmpty, .isEmpty _ => True
  | _, _ => False

theorem explained_pushed {t : T} {i j : Nat} {value : Int}
    (hcall : e.labels[i]? = some ⟨t, .call (.push value)⟩) (hret : ReturnsAt e t i j (.pushed true)) :
    ∃! k, (i < k ∧ k < j) ∧ PushesAt e k t value := by
  have hj := hret.lt_length.le
  obtain ⟨pc, hpc, hadv⟩ := hret.step
  obtain ⟨value', pos, rfl⟩ := advance_ret hadv
  obtain ⟨k, hik, hkj, hmove⟩ := claim_of_call hcall hret.inner hret.lt hj hpc rfl
  rcases hmove with ⟨value, ⟨⟩, hpush⟩ | ⟨⟨⟩, -⟩
  refine ⟨k, ⟨⟨hik, hkj⟩, hpush⟩, ?_⟩
  rintro k' ⟨⟨hik', hkj'⟩, hpush'⟩
  exact claim_unique hret.inner hj hik' hkj' hik hkj hpush'.claims hpush.claims

theorem explained_popped {t : T} {i j : Nat} {out : Int}
    (hcall : e.labels[i]? = some ⟨t, .call .pop⟩) (hret : ReturnsAt e t i j (.popped (some out))) :
    ∃! k, (i < k ∧ k < j) ∧ PopsAt e k t out := by
  have hj := hret.lt_length.le
  obtain ⟨pc, hpc, hadv⟩ := hret.step
  obtain ⟨pos, rfl⟩ := advance_ret hadv
  obtain ⟨k, hik, hkj, hmove⟩ := claim_of_call hcall hret.inner hret.lt hj hpc rfl
  rcases hmove with ⟨value, ⟨⟩, -⟩ | ⟨-, value, hpop, hvalue⟩
  -- the value read from the cell is the one the head moved over
  have hok : Taking z (e.state j).mem pos out := (inv_of_execution e j hj).points t _ hpc
  obtain rfl : value = out := Option.some.inj (hvalue.symm.trans hok.value)
  refine ⟨k, ⟨⟨hik, hkj⟩, hpop⟩, ?_⟩
  rintro k' ⟨⟨hik', hkj'⟩, hpop'⟩
  exact claim_unique hret.inner hj hik' hkj' hik hkj hpop'.claims hpop.claims

/-- A call that returns from an access that has claimed nothing has made no claim. -/
theorem no_claim_of_return {t : T} {i j : Nat} {res : Res} (hret : ReturnsAt e t i j res) {pc : Pc}
    (hpc : (e.state j).pc t = some pc) (hfree : pc.claimed = none) {k : Nat} (hik : i < k)
    (hkj : k < j) : ¬ ClaimsAt e k t := by
  rintro ⟨-, pc', pos, hpc', hclaim⟩
  obtain ⟨pc'', hpc'', hclaim', -⟩ := claimed_until
    (fun m act hkm hmj => hret.inner m act (by omega) hmj) hpc' hclaim hkj le_rfl hret.lt_length.le
  obtain rfl := Option.some.inj (hpc.symm.trans hpc'')
  rw [hfree] at hclaim'
  cases hclaim'

theorem explained_not_pushed {t : T} {i j : Nat} {value : Int}
    (hcall : e.labels[i]? = some ⟨t, .call (.push value)⟩)
    (hret : ReturnsAt e t i j (.pushed false)) :
    (∀ k value, i < k → k < j → ¬ PushesAt e k t value) ∧
      ∃ k, i < k ∧ k < j ∧ TailInUse z (e.state k) := by
  have hj := hret.lt_length.le
  obtain ⟨pc, hpc, hadv⟩ := hret.step
  obtain ⟨value', pos, rfl, hseq⟩ := advance_ret hadv
  refine ⟨fun k _ hik hkj hpush => no_claim_of_return hret hpc rfl hik hkj hpush.claims, ?_⟩
  -- the instant the position was read from the tail
  obtain ⟨k, _, pc', hik, hkj, -, -, -, hgoto, hat, -, -⟩ :=
    entry_of_call (Q := fun pc => pc = .pushSeq value' pos) hcall nofun hret.inner hret.lt hj hpc rfl
  have htail : (e.state k).mem.ring.tail = pos := (advance_goto hgoto).2.1 value' pos hat
  refine ⟨k, hik, hkj, (inv_of_execution e k (by omega)).tail_in_use ?_⟩
  rw [htail]
  exact ((mono_of_le hkj.le hj).1 _).trans_lt hseq

theorem explained_not_popped {t : T} {i j : Nat} (hcall : e.labels[i]? = some ⟨t, .call .pop⟩)
    (hret : ReturnsAt e t i j (.popped none)) :
    (∀ k value, i < k → k < j → ¬ PopsAt e k t value) ∧
      ∃ k, i < k ∧ k < j ∧ NothingAtHead z (e.state k) := by
  have hj := hret.lt_length.le
  obtain ⟨pc, hpc, hadv⟩ := hret.step
  obtain ⟨pos, rfl, hseq⟩ := advance_ret hadv
  refine ⟨fun k _ hik hkj hpop => no_claim_of_return hret hpc rfl hik hkj hpop.claims, ?_⟩
  -- the instant the position was read from the head
  obtain ⟨k, _, pc', hik, hkj, -, -, -, hgoto, hat, -, -⟩ :=
    entry_of_call (Q := fun pc => pc = .popSeq pos) hcall nofun hret.inner hret.lt hj hpc rfl
  have hhead : (e.state k).mem.ring.head = pos := (advance_goto hgoto).2.2 pos hat
  refine ⟨k, hik, hkj, fun value hholds => ?_⟩
  have hle : (e.state k).mem.ring.seq (z.cell pos) ≤ (e.state j).mem.ring.seq (z.cell pos) :=
    (mono_of_le hkj.le hj).1 _
  have hheld := hholds.1
  rw [hhead] at hheld
  omega

/-- **Every answer is explained.** -/
theorem explained {t : T} {i j : Nat} {op : Op} {res : Res}
    (hcall : e.labels[i]? = some ⟨t, .call op⟩) (hret : ReturnsAt e t i j res) :
    Explained e t i j op res := by
  obtain ⟨pc, hpc, hadv⟩ := hret.step
  have hpoint := advance_ret hadv
  obtain ⟨pc', hpc', hop⟩ := op_of_call hcall hret.inner hret.lt le_rfl hret.lt_length.le
  obtain rfl := Option.some.inj (hpc.symm.trans hpc')
  cases res with
  | pushed ok =>
    cases ok with
    | true =>
      obtain ⟨value, pos, rfl⟩ := hpoint
      obtain rfl : .push value = op := hop
      exact explained_pushed hcall hret
    | false =>
      obtain ⟨value, pos, rfl, -⟩ := hpoint
      obtain rfl : .push value = op := hop
      exact explained_not_pushed hcall hret
  | popped out =>
    cases out with
    | some out =>
      obtain ⟨pos, rfl⟩ := hpoint
      obtain rfl : .pop = op := hop
      exact explained_popped hcall hret
    | none =>
      obtain ⟨pos, rfl, -⟩ := hpoint
      obtain rfl : .pop = op := hop
      exact explained_not_popped hcall hret
  | pops count =>
    obtain rfl : .pops = op := hpoint.symm.trans hop
    trivial
  | peeked out =>
    obtain rfl : .peek = op := hpoint.symm.trans hop
    trivial
  | isEmpty empty =>
    obtain rfl : .isEmpty = op := hpoint.symm.trans hop
    trivial

/-! ## What moved a counter -/

/-- At step `k` thread `t` moves no counter, or is in the one call that pushes or pops that value
and will say so. -/
structure Accounted (e : Execution T z) (k : Nat) (t : T) : Prop where
  pushed : (e.state (k + 1)).mem.pushed = (e.state k).mem.pushed ∨ ∃ i value, i < k ∧
    e.labels[i]? = some ⟨t, .call (.push value)⟩ ∧ InnerSteps e t i k ∧ PushesAt e k t value ∧
    ∀ j res, ReturnsAt e t k j res → res = .pushed true
  popped : (e.state (k + 1)).mem.popped = (e.state k).mem.popped ∨ ∃ i value, i < k ∧
    e.labels[i]? = some ⟨t, .call .pop⟩ ∧ InnerSteps e t i k ∧ PopsAt e k t value ∧
    ∀ j res, ReturnsAt e t k j res → res = .popped (some value)

/-- A step to a point of the call is an inner one, unless it starts the call. -/
theorem act_of_point {k : Nat} {l : Threads.Label T Op Res} (hl : e.labels[k]? = some l)
    {pc pc' : Pc} (hpc : (e.state k).pc l.thread = some pc)
    (hpc' : (e.state (k + 1)).pc l.thread = some pc') : l.act = .go := by
  obtain ⟨t, act⟩ := l
  cases act with
  | go => rfl
  | call op =>
    rw [(Program.next_call (e.steps hl)).1] at hpc
    cases hpc
  | ret res =>
    obtain ⟨_, _, -, -, hs⟩ := Program.next_ret (e.steps hl)
    rw [hs, Threads.State.move_pc_self] at hpc'
    cases hpc'

/-- The call that claims at step `k`, and what it will return. -/
theorem call_of_claim {k : Nat} {t : T} {pc pc' : Pc} {pos : Nat} (hk : k < e.labels.length)
    (hpc : (e.state k).pc t = some pc) (hpc' : (e.state (k + 1)).pc t = some pc')
    (hclaim : pc'.claimed = some pos) (hop : pc'.op = pc.op) :
    ∃ i, i < k ∧ e.labels[i]? = some ⟨t, .call pc.op⟩ ∧ InnerSteps e t i k ∧
      ∀ j res, ReturnsAt e t k j res →
        ∃ pcj, (e.state j).pc t = some pcj ∧ ReturnPoint z (e.state j).mem.ring pcj res ∧
          pcj.claimed = some pos ∧ pcj.op = pc.op := by
  obtain ⟨i, op, hik, hcall, hinner⟩ := call_of_pc hk.le hpc
  obtain ⟨pc₀, hpc₀, hop₀⟩ := op_of_call hcall hinner hik le_rfl hk.le
  obtain rfl := Option.some.inj (hpc.symm.trans hpc₀)
  refine ⟨i, hik, by rw [hop₀]; exact hcall, hinner, fun j res hret => ?_⟩
  obtain ⟨pcj, hpcj, hadv⟩ := hret.step
  obtain ⟨pc₁, hpc₁, hclaim₁, hop₁⟩ :=
    claimed_until hret.inner hpc' hclaim hret.lt le_rfl hret.lt_length.le
  obtain rfl := Option.some.inj (hpcj.symm.trans hpc₁)
  exact ⟨pcj, hpcj, advance_ret hadv, hclaim₁, hop₁.trans hop⟩

theorem accounted {k : Nat} {l : Threads.Label T Op Res} (hl : e.labels[k]? = some l) :
    Accounted e k l.thread := by
  have hk := LabelledSystem.Execution.lt_length hl
  rcases effect_of_label hl with hm | ⟨pc, hpc, heff⟩
  · exact ⟨Or.inl (by rw [hm]), Or.inl (by rw [hm])⟩
  constructor
  · rcases heff.moves.1 with hsame | ⟨value, pos, rfl, hpc', hpushed⟩
    · exact Or.inl hsame
    · obtain ⟨i, hik, hcall, hinner, hlater⟩ := call_of_claim hk hpc hpc' rfl rfl
      have hact := act_of_point hl hpc hpc'
      obtain ⟨t, act⟩ := l
      subst hact
      refine Or.inr ⟨i, value, hik, hcall, hinner, ⟨hl, hpushed⟩, fun j res hret => ?_⟩
      obtain ⟨pcj, -, hpoint, hclaim, hop⟩ := hlater j res hret
      rcases hpoint.claimed hclaim with ⟨_, rfl, -⟩ | ⟨out, -, rfl⟩
      · rfl
      · cases hop
  · rcases heff.moves.2 with hsame | ⟨pos, rfl, hpc', hpopped⟩
    · exact Or.inl hsame
    · obtain ⟨i, hik, hcall, hinner, hlater⟩ := call_of_claim hk hpc hpc' rfl rfl
      have hact := act_of_point hl hpc hpc'
      obtain ⟨t, act⟩ := l
      subst hact
      have hpops : PopsAt e k t _ := ⟨hl, hpopped⟩
      refine Or.inr ⟨i, _, hik, hcall, hinner, hpops, fun j res hret => ?_⟩
      obtain ⟨pcj, hpcj, hpoint, hclaim, hop⟩ := hlater j res hret
      rcases hpoint.claimed hclaim with ⟨_, -, rfl⟩ | ⟨out, rfl, rfl⟩
      · cases hop
      · -- the value it has read is still the one at its position
        have hj := hret.lt_length.le
        have hok : Taking z (e.state j).mem pos out := (inv_of_execution e j hj).points t _ hpcj
        have hvalue := hpops.value_at hpc hret.lt hj
        rw [Option.some.inj (hvalue.symm.trans hok.value)]

/-! ## The ring -/

/-- **The ring is a first-in first-out queue.** For any number of threads and any interleaving of
their accesses: at every instant what is popped, in the order of the head's moves, is a prefix of
what is pushed, in the order of the tail's, at most the capacity is between the two, and it is on
the ring. A call that succeeds moves its counter once, over its value; one that fails moves none,
and at an instant of the call the cell of the tail was in use or nothing was published at the head.
A counter is moved by such calls only. -/
theorem ring_fifo (z : Size) (e : Execution T z) :
    (∀ k ≤ e.labels.length, Fifo z (e.state k)) ∧
      (∀ t i j op res, e.labels[i]? = some ⟨t, .call op⟩ → ReturnsAt e t i j res →
        Explained e t i j op res) ∧
      ∀ k l, e.labels[k]? = some l → Accounted e k l.thread :=
  ⟨fun k hk => (inv_of_execution e k hk).fifo, fun _ _ _ _ _ => explained, fun _ _ => accounted⟩

/-! ## A ring that is not full -/

/-- Two values go in; one pop moves the head over the first and stops, another takes the second; a
third value is refused. -/
def stalledPop : List (Threads.Label Nat Op Res) :=
  [⟨0, .call (.push 7)⟩, ⟨0, .go⟩, ⟨0, .go⟩, ⟨0, .go⟩, ⟨0, .go⟩, ⟨0, .ret (.pushed true)⟩,
    ⟨0, .call (.push 8)⟩, ⟨0, .go⟩, ⟨0, .go⟩, ⟨0, .go⟩, ⟨0, .go⟩, ⟨0, .ret (.pushed true)⟩,
    ⟨1, .call .pop⟩, ⟨1, .go⟩, ⟨1, .go⟩, ⟨1, .go⟩,
    ⟨2, .call .pop⟩, ⟨2, .go⟩, ⟨2, .go⟩, ⟨2, .go⟩, ⟨2, .go⟩, ⟨2, .ret (.popped (some 8))⟩,
    ⟨0, .call (.push 9)⟩, ⟨0, .go⟩, ⟨0, .ret (.pushed false)⟩]

theorem stalledPop_runs :
    ((system Nat (Size.ofCapacity 2)).run (system Nat (Size.ofCapacity 2)).init stalledPop).isSome := by
  decide

/-- **A push may fail while the ring is empty.** -/
theorem full_answer_on_an_empty_ring :
    ¬ ∀ (e : Execution Nat (Size.ofCapacity 2)) (t i j : Nat) (value : Int),
      e.labels[i]? = some ⟨t, .call (.push value)⟩ → ReturnsAt e t i j (.pushed false) →
        ∃ k, i ≤ k ∧ k ≤ j + 1 ∧ Full (Size.ofCapacity 2) (e.state k) := by
  intro h
  have hinner : InnerSteps (.ofRun _ stalledPop stalledPop_runs) 0 22 24 := by
    intro k act hik hkj hl
    obtain rfl : k = 23 := by omega
    exact (Threads.Label.mk.inj (Option.some.inj hl)).2.symm
  obtain ⟨k, hik, hkj, hfull⟩ := h (.ofRun _ stalledPop stalledPop_runs) 0 22 24 9 rfl
    ⟨by decide, rfl, hinner⟩
  have hnot : ∀ k, 22 ≤ k → k ≤ 25 →
      ((LabelledSystem.Execution.ofRun _ stalledPop stalledPop_runs).state k).mem.pushed.length ≠
        ((LabelledSystem.Execution.ofRun _ stalledPop stalledPop_runs).state k).mem.popped.length +
          (Size.ofCapacity 2).capacity := by
    intro k hge hle
    interval_cases k <;> decide
  exact hnot k hik hkj hfull

end Ring

end MojoHttp
