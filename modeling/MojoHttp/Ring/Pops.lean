import MojoHttp.Ring.Hosted

/-!
# What a ring has for its next pop

A pop takes the value published at the head, if there is one. When one begins to be there, and what
a pop that found none knows.

* **`AtHead`** — a value is published at the head.
* **`atHead_or_pushing`** — a ring that is not empty has one, or the push that claimed that position
  is still under way.
* **`atHead_begins`** — one begins to be there when it is published, or when a pop has taken the one
  before it.
* **`not_atHead_of_none`** — there is none at the instant a pop answers None.
-/

namespace MojoHttp

namespace Ring

open Threads (Next)

variable {z : Size} {T : Type}

/-- A value is published at the head. -/
def AtHead (z : Size) (m : Traced) : Prop := m.ring.seq (z.cell m.ring.head) = m.ring.head + 1

/-- **A ring that is not empty.** -/
theorem atHead_or_pushing {s : State T} (h : Inv z s) (hlt : s.mem.ring.head < s.mem.ring.tail) :
    AtHead z s.mem ∨ ∃ t pc, s.pc t = some pc ∧ pc.pushing = some s.mem.ring.head := by
  have hwindow := h.window
  obtain ⟨pos, hcell, hat⟩ := h.cells _ (z.cell_le s.mem.ring.head)
  cases hat with
  | free hseq htail hhead =>
    have heq := z.cell_inj hcell (by omega) (by omega)
    omega
  | writing t pc hpc hclaim =>
    obtain ⟨_, hw⟩ := (h.points t pc hpc).writing hclaim
    have hle := hw.head
    have htail := hw.tail
    obtain rfl : pos = s.mem.ring.head := z.cell_inj hcell (by omega) (by omega)
    exact Or.inr ⟨t, pc, hpc, hclaim⟩
  | published value hpub =>
    have hle := hpub.head
    have htail := hpub.tail
    obtain rfl : pos = s.mem.ring.head := z.cell_inj hcell (by omega) (by omega)
    exact Or.inl hpub.seq
  | taking t pc hpc hclaim =>
    obtain ⟨_, ht⟩ := (h.points t pc hpc).taking hclaim
    have hle := ht.head
    have htail := ht.window
    have heq := z.cell_inj hcell (by omega) (by omega)
    omega

/-- A position the head has passed was published. -/
theorem seq_of_passed {s : State T} (h : Inv z s) {pos : Nat} (hlt : pos < s.mem.ring.head) :
    pos + 1 ≤ s.mem.ring.seq (z.cell pos) := by
  have hle := h.head_le
  obtain ⟨q, hcell, hat⟩ := h.cells _ (z.cell_le pos)
  rw [← hcell]
  cases hat with
  | free hseq htail hhead => omega
  | writing t pc hpc hclaim =>
    obtain ⟨_, hw⟩ := (h.points t pc hpc).writing hclaim
    have hseq := hw.seq
    have hq := hw.head
    omega
  | published value hpub =>
    have hseq := hpub.seq
    have hq := hpub.head
    omega
  | taking t pc hpc hclaim =>
    -- the cell's position is a lap from `pos` at most, and not behind it
    obtain ⟨_, ht⟩ := (h.points t pc hpc).taking hclaim
    have hseq := ht.seq
    have hwindow := ht.window
    rcases Nat.lt_or_ge q pos with hqp | hge
    · have heq := z.cell_inj hcell (by omega) (by omega)
      omega
    · omega

section

variable {m m' : Traced} {p : Pc}

/-- The head does not move back. -/
theorem head_le_of_effect {pc' : Option Pc} (h : Effect z m p m' pc') :
    m.ring.head ≤ m'.ring.head := by
  cases h with
  | claimHead pos hhead => exact hhead.le.trans (Nat.le_succ pos)
  | _ => exact Nat.le_refl _

/-- **When a value begins to be at the head.** -/
theorem atHead_begins {pc' : Option Pc} (h : Effect z m p m' pc') (hok : PointOk z m p)
    (hnot : ¬ AtHead z m) (hat : AtHead z m') :
    (∃ value, p = .pushPublish value m.ring.head ∧ m'.ring.head = m.ring.head) ∨
      ∃ pos, p = .popExchange pos := by
  cases h with
  | read | claimTail | write | take => exact absurd hat hnot
  | publish value pos =>
    refine Or.inl ⟨value, ?_, rfl⟩
    rcases eq_or_ne (z.cell m.ring.head) (z.cell pos) with hcell | hne
    · have hseq : m.ring.head + 1 = pos + 1 := by
        have hat' : Function.update m.ring.seq (z.cell pos) (pos + 1) (z.cell m.ring.head) =
            m.ring.head + 1 := hat
        rw [hcell, Function.update_self] at hat'
        exact hat'.symm
      rw [Nat.succ.inj hseq]
    · exact absurd ((Function.update_of_ne hne _ _).symm.trans hat) hnot
  | claimHead pos hhead => exact Or.inr ⟨pos, rfl⟩
  | release pos out =>
    -- the released cell is a lap ahead of the one that was taken
    have ht := Taking.head hok
    have hcap := z.two_le_capacity
    rcases eq_or_ne (z.cell m.ring.head) (z.cell pos) with hcell | hne
    · have hseq : pos + z.capacity = m.ring.head + 1 := by
        have hat' : Function.update m.ring.seq (z.cell pos) (pos + z.capacity)
            (z.cell m.ring.head) = m.ring.head + 1 := hat
        rwa [hcell, Function.update_self] at hat'
      have heq := z.cell_inj hcell (by omega) (by omega)
      omega
    · exact absurd ((Function.update_of_ne hne _ _).symm.trans hat) hnot

/-- What a pop returns. -/
theorem popped_of_op {res : Res} (hop : p.op = .pop)
    (hret : ((program z).advance m p).2 = .ret res) : ∃ out, res = .popped out := by
  have hpoint := advance_ret (show (program z).advance m p = (_, .ret res) from Prod.ext rfl hret)
  cases res with
  | popped out => exact ⟨out, rfl⟩
  | pushed ok =>
    cases ok with
    | true =>
      obtain ⟨value, pos, rfl⟩ := hpoint
      cases hop
    | false =>
      obtain ⟨value, pos, rfl, -⟩ := hpoint
      cases hop
  | pops | peeked | isEmpty =>
    rw [show p.op = _ from hpoint] at hop
    cases hop

end

/-! ## Where a pop looks -/

/-- A pop looks at no position the head has not come to. -/
def PopsBehind (s : State T) : Prop := ∀ t pos, s.pc t = some (.popSeq pos) → pos ≤ s.mem.ring.head

variable [DecidableEq T]

theorem Hosted.StepView.popsBehind {s s' : State T} {t : T} (h : Hosted.StepView z s t s')
    (hs : PopsBehind s) : PopsBehind s' := by
  have hfresh : ∀ {pc' : Option Pc}, Fresh pc' → ∀ pos, pc' ≠ some (.popSeq pos) := by
    intro pc' hf pos heq
    obtain ⟨op, hop⟩ := hf _ heq
    cases op <;> cases hop
  cases h with
  | quiet pc' hidle hf =>
    intro u pos hu
    rcases eq_or_ne u t with rfl | hne
    · rw [s.move_pc_self] at hu
      exact absurd hu (hfresh hf pos)
    · rw [s.move_pc_of_ne _ _ hne] at hu
      exact hs u pos hu
  | access p m' pc' hat hmem hnext =>
    have hle : s.mem.ring.head ≤ m'.ring.head := by
      rw [hmem]
      exact head_le_of_effect (effect_advance z s.mem p)
    intro u pos hu
    rcases eq_or_ne u t with rfl | hne
    · rw [s.move_pc_self] at hu
      cases hres : ((program z).advance s.mem p).2 with
      | ret res =>
        rw [hres] at hnext
        exact absurd hu (hfresh hnext pos)
      | goto p' =>
        rw [hres] at hnext
        obtain rfl : pc' = some p' := hnext
        cases hu
        have hhead : s.mem.ring.head = pos :=
          (advance_goto (show (program z).advance s.mem p = (_, .goto (.popSeq pos)) from
            Prod.ext rfl hres)).2.2 pos rfl
        exact hhead.symm.le.trans hle
    · rw [s.move_pc_of_ne _ _ hne] at hu
      exact (hs u pos hu).trans hle

omit [DecidableEq T] in
/-- **A pop that answers None found nothing at the head.** -/
theorem not_atHead_of_none {s : State T} (h : Inv z s) (hs : PopsBehind s) {t : T} {p : Pc}
    (hpc : s.pc t = some p) (hret : ((program z).advance s.mem p).2 = .ret (.popped none)) :
    ¬ AtHead z ((program z).advance s.mem p).1 := by
  have hpoint := advance_ret (show (program z).advance s.mem p = (_, .ret (.popped none)) from
    Prod.ext rfl hret)
  obtain ⟨pos, rfl, hlt⟩ := hpoint
  have hle := hs t pos hpc
  have hring : ((program z).advance s.mem (.popSeq pos)).1.ring = s.mem.ring := by
    simp only [program, advance]
    split
    · rfl
    · split <;> rfl
  intro hat
  unfold AtHead at hat
  rw [hring] at hat
  -- what it read is its position's word before it was published
  rcases Nat.lt_or_ge pos s.mem.ring.head with hpassed | hge
  · have hseq := seq_of_passed h hpassed
    omega
  · obtain rfl : pos = s.mem.ring.head := by omega
    omega

end Ring

end MojoHttp
