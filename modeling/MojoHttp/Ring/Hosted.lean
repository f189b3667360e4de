import MojoHttp.Ring.Fifo

/-!
# A ring inside a larger program

A program may hold a ring among its other memory and make the ring's calls among its own steps: an
access to the ring is then one of `Ring.advance`'s.

* **`Hosted`** — a program with such a ring; **`Hosted.view`** is what its states show of the ring.
* **`Hosted.step_view`** — a step of the program is an access of its thread to the ring, or leaves
  the ring as it was.
* **`Hosted.inv_of_execution`** — so the ring's invariant holds at every instant of the program.
* **`Hosted.StepView.seq_published`** — a position that is published stays so until a pop releases
  it.
* **`Rings.hosted`** — each ring of a program that holds several.
* **`Hosted.look`** — what a look at the head's cell knows when it reads the sequence word.
* **`Inv.room`** — with one thread that pops, a push onto a ring that is not nearly full goes on.
-/

namespace MojoHttp

namespace Ring

open Threads (Next Program)

/-- A point of a call that has made no access yet, or no point of a call. -/
def Fresh (pc : Option Pc) : Prop := ∀ p, pc = some p → ∃ op, p = Pc.start op

theorem fresh_none : Fresh none := fun _ h => nomatch h

theorem fresh_start (op : Op) : Fresh (some (Pc.start op)) := fun _ h => ⟨op, (Option.some.inj h).symm⟩

/-- What a step of the host does behind an access of the ring: it goes on with the call, or is done
with it and may start another. -/
def Follows : Next Pc Res → Option Pc → Prop
  | .goto pc, after => after = some pc
  | .ret _, after => Fresh after

variable {σ Pc' Op' Res' : Type}

/-- A program with a ring of size `z` that it accesses by the ring's calls only. -/
structure Hosted (z : Size) (P : Program σ Pc' Op' Res') where
  ring : σ → Traced
  /-- The access to the ring a point is about to make, if it is. -/
  access : Pc' → Option Pc
  start : ∀ op, Fresh (access (P.start op))
  quiet : ∀ m pc, access pc = none →
    ring (P.advance m pc).1 = ring m ∧ Fresh ((P.advance m pc).2.point.bind access)
  step : ∀ m pc p, access pc = some p →
    ring (P.advance m pc).1 = ((program z).advance (ring m) p).1 ∧
      Follows ((program z).advance (ring m) p).2 ((P.advance m pc).2.point.bind access)

namespace Hosted

variable {z : Size} {P : Program σ Pc' Op' Res'} (H : Hosted z P) {T : Type}

/-- The ring, and where each thread stands in its calls. -/
def view (s : Threads.State T σ Pc') : State T := ⟨H.ring s.mem, fun t => (s.pc t).bind H.access⟩

@[simp] theorem view_mem (s : Threads.State T σ Pc') : (H.view s).mem = H.ring s.mem := rfl

@[simp] theorem view_pc (s : Threads.State T σ Pc') (t : T) :
    (H.view s).pc t = (s.pc t).bind H.access := rfl

variable [DecidableEq T]

theorem view_move (s : Threads.State T σ Pc') (t : T) (m : σ) (pc : Option Pc') :
    H.view (s.move t m pc) = (H.view s).move t (H.ring m) (pc.bind H.access) := by
  have hpc : ∀ u, (H.view (s.move t m pc)).pc u =
      ((H.view s).move t (H.ring m) (pc.bind H.access)).pc u := by
    intro u
    rcases eq_or_ne u t with rfl | hne
    · rw [view_pc, s.move_pc_self, Threads.State.move_pc_self]
    · rw [view_pc, s.move_pc_of_ne m pc hne, Threads.State.move_pc_of_ne _ _ _ hne]
      rfl
  show (⟨H.ring m, (H.view (s.move t m pc)).pc⟩ : State T) = _
  rw [funext hpc]
  rfl

theorem move_move (s : Threads.State T σ Pc') (t : T) (m m' : σ) (pc pc' : Option Pc') :
    (s.move t m pc).move t m' pc' = s.move t m' pc' := by
  unfold Threads.State.move
  rw [Function.update_idem]

variable [DecidableEq Res']

/-- What a step of thread `t` is to the ring: nothing but perhaps the start of a call, or one
access. -/
inductive StepView (z : Size) (s : State T) (t : T) : State T → Prop
  | quiet (pc' : Option Pc) (hidle : s.pc t = none) (hfresh : Fresh pc') :
      StepView z s t (s.move t s.mem pc')
  | access (p : Pc) (m' : Traced) (pc' : Option Pc) (hat : s.pc t = some p)
      (hmem : m' = ((program z).advance s.mem p).1)
      (hnext : Follows ((program z).advance s.mem p).2 pc') : StepView z s t (s.move t m' pc')

omit [DecidableEq Res'] in
/-- A step inside a call of the host, or out of one. -/
theorem stepView_of_advance {s : Threads.State T σ Pc'} {t : T} {pc : Pc'} {m' : σ}
    {nx : Next Pc' Res'} (hpc : s.pc t = some pc) (hadv : P.advance s.mem pc = (m', nx)) :
    StepView z (H.view s) t (H.view (s.move t m' nx.point)) := by
  have hat : (H.view s).pc t = H.access pc := by rw [view_pc, hpc]; rfl
  rw [view_move]
  cases hacc : H.access pc with
  | none =>
    have hquiet := H.quiet s.mem pc hacc
    rw [hadv] at hquiet
    rw [hquiet.1]
    exact .quiet _ (hat.trans hacc) hquiet.2
  | some p =>
    have hstep := H.step s.mem pc p hacc
    rw [hadv] at hstep
    exact .access p _ _ (hat.trans hacc) hstep.1 hstep.2

/-- **A step of the host, seen from the ring.** -/
theorem step_view {s s' : Threads.State T σ Pc'} {l : Threads.Label T Op' Res'}
    (h : P.next s l = some s') : StepView z (H.view s) l.thread (H.view s') := by
  obtain ⟨t, act⟩ := l
  cases act with
  | call op =>
    obtain ⟨hpc, rfl⟩ := Program.next_call h
    rw [view_move]
    exact .quiet _ (by rw [view_pc, hpc]; rfl) (H.start op)
  | go =>
    obtain ⟨pc, pc', m', hpc, hadv, rfl⟩ := Program.next_go h
    exact H.stepView_of_advance hpc hadv
  | ret res =>
    obtain ⟨pc, m', hpc, hadv, rfl⟩ := Program.next_ret h
    exact H.stepView_of_advance hpc hadv

/-- Another thread stays where it is in the ring's calls. -/
theorem StepView.pc_of_ne {s s' : State T} {t u : T} (h : StepView z s t s') (hu : u ≠ t) :
    s'.pc u = s.pc u := by
  cases h with
  | quiet pc' hidle hfresh => exact s.move_pc_of_ne _ _ hu
  | access p m' pc' hat hmem hnext => exact s.move_pc_of_ne _ _ hu

end Hosted

/-! ## Several rings -/

/-- A program with rings under the names `R`, each accessed by its calls only. -/
structure Rings {R : Type} [DecidableEq R] (z : R → Size) (P : Program σ Pc' Op' Res') where
  ring : σ → R → Traced
  /-- The ring a point is about to access, and how, if it is. -/
  target : Pc' → Option (R × Pc)
  start : ∀ op a, target (P.start op) = some a → ∃ op', a.2 = Pc.start op'
  quiet : ∀ m pc, target pc = none → ring (P.advance m pc).1 = ring m ∧
    ∀ pc' a, (P.advance m pc).2.point = some pc' → target pc' = some a → ∃ op, a.2 = Pc.start op
  step : ∀ m pc r p, target pc = some (r, p) →
    ring (P.advance m pc).1 =
      Function.update (ring m) r ((program (z r)).advance (ring m r) p).1 ∧
    (∀ q, ((program (z r)).advance (ring m r) p).2 = .goto q →
      ∃ pc', (P.advance m pc).2.point = some pc' ∧ target pc' = some (r, q)) ∧
    ∀ res, ((program (z r)).advance (ring m r) p).2 = .ret res →
      ∀ pc' a, (P.advance m pc).2.point = some pc' → target pc' = some a → ∃ op, a.2 = Pc.start op

namespace Rings

variable {R : Type} [DecidableEq R] {z : R → Size} {P : Program σ Pc' Op' Res'} (H : Rings z P)

/-- The access to ring `r` a point is about to make. -/
def accessTo (r : R) (pc : Pc') : Option Pc :=
  (H.target pc).bind fun a => if a.1 = r then some a.2 else none

theorem accessTo_eq_some {r : R} {pc : Pc'} {p : Pc} :
    H.accessTo r pc = some p ↔ H.target pc = some (r, p) := by
  unfold accessTo
  cases H.target pc with
  | none => exact iff_of_false nofun nofun
  | some a =>
    obtain ⟨r', p'⟩ := a
    rw [Option.bind_some]
    split
    · rename_i h
      obtain rfl : r' = r := h
      exact ⟨fun heq => by rw [← Option.some.inj heq], fun heq => congrArg (Option.map Prod.snd) heq⟩
    · rename_i h
      refine iff_of_false nofun fun heq => h ?_
      exact congrArg Prod.fst (Option.some.inj heq)

theorem fresh_of_target {nx : Next Pc' Res'} {r : R}
    (h : ∀ pc a, nx.point = some pc → H.target pc = some a → ∃ op, a.2 = Pc.start op) :
    Fresh (nx.point.bind (H.accessTo r)) := by
  intro p hp
  obtain ⟨pc, hpc, hacc⟩ := Option.bind_eq_some_iff.mp hp
  exact h pc _ hpc (H.accessTo_eq_some.mp hacc)

/-- **Each of the rings is hosted.** -/
def hosted (r : R) : Hosted (z r) P where
  ring m := H.ring m r
  access := H.accessTo r
  start op := by
    intro p hp
    exact H.start op _ (H.accessTo_eq_some.mp hp)
  quiet m pc h := by
    cases htarget : H.target pc with
    | none =>
      obtain ⟨hring, hnext⟩ := H.quiet m pc htarget
      exact ⟨congrFun hring r, H.fresh_of_target hnext⟩
    | some a =>
      -- the access is to another ring
      obtain ⟨r', p⟩ := a
      have hne : r ≠ r' := fun heq => by
        rw [H.accessTo_eq_some.mpr (heq ▸ htarget)] at h
        cases h
      obtain ⟨hring, hgoto, hret⟩ := H.step m pc r' p htarget
      refine ⟨(congrFun hring r).trans (Function.update_of_ne hne _ _), ?_⟩
      cases hres : ((program (z r')).advance (H.ring m r') p).2 with
      | goto q =>
        obtain ⟨pc', hpoint, htarget'⟩ := hgoto q hres
        rw [hpoint]
        intro q' hq'
        have hr := H.accessTo_eq_some.mp (show H.accessTo r pc' = some q' from hq')
        rw [htarget'] at hr
        exact absurd (congrArg Prod.fst (Option.some.inj hr)).symm hne
      | ret res => exact H.fresh_of_target (hret res hres)
  step m pc p h := by
    obtain ⟨hring, hgoto, hret⟩ := H.step m pc r p (H.accessTo_eq_some.mp h)
    refine ⟨(congrFun hring r).trans (Function.update_self ..), ?_⟩
    cases hres : ((program (z r)).advance (H.ring m r) p).2 with
    | goto q =>
      obtain ⟨pc', hpoint, htarget⟩ := hgoto q hres
      rw [hpoint]
      exact H.accessTo_eq_some.mpr htarget
    | ret res => exact H.fresh_of_target (hret res hres)

end Rings

namespace Hosted

variable {z : Size} {P : Program σ Pc' Op' Res'} (H : Hosted z P) {T : Type} [DecidableEq T]
  [DecidableEq Res']

/-! ## The invariant -/

theorem fresh_ready {pc : Option Pc} (h : Fresh pc) (z : Size) (r : Ring) :
    ∀ p, pc = some p → p.claimed = none ∧ Ready z r p := by
  intro p hp
  obtain ⟨op, rfl⟩ := h p hp
  exact Pc.start_ready z r op

theorem StepView.inv {s s' : State T} {t : T} (h : StepView z s t s') (hinv : Inv z s) :
    Inv z s' := by
  cases h with
  | quiet pc' hidle hfresh =>
    refine hinv.reader (fun p hp => ?_) (fresh_ready hfresh z s.mem.ring)
    rw [hidle] at hp
    cases hp
  | access p m' pc' hat hmem hnext =>
    subst hmem
    have heff := effect_advance z s.mem p
    have hdone := inv_effect hinv hat heff
    cases hres : ((program z).advance s.mem p).2 with
    | goto p' =>
      rw [hres] at hnext hdone
      obtain rfl : pc' = some p' := hnext
      exact hdone
    | ret res =>
      rw [hres] at hnext hdone
      -- the call is over before the next one starts
      have hnone : ∀ q, (s.move t ((program z).advance s.mem p).1 none).pc t = some q →
          q.claimed = none := by
        intro q hq
        rw [s.move_pc_self] at hq
        cases hq
      have hafter := hdone.reader hnone (fresh_ready hnext z _)
      rw [show (s.move t ((program z).advance s.mem p).1 (point (.ret res))) =
        s.move t ((program z).advance s.mem p).1 none from rfl, move_move] at hafter
      exact hafter

omit [DecidableEq Res'] in
/-- A call of the host starts. -/
theorem inv_call {s : Threads.State T σ Pc'} (hinv : Inv z (H.view s)) {t : T} (hpc : s.pc t = none)
    (op : Op') : Inv z (H.view (s.move t s.mem (some (P.start op)))) := by
  have hquiet : StepView z (H.view s) t ((H.view s).move t (H.view s).mem (H.access (P.start op))) :=
    .quiet _ (by rw [view_pc, hpc]; rfl) (H.start op)
  rw [view_move]
  exact hquiet.inv hinv

omit [DecidableEq Res'] in
/-- A thread of the host takes a step. -/
theorem inv_advance {s : Threads.State T σ Pc'} (hinv : Inv z (H.view s)) {t : T} {pc : Pc'} {m' : σ}
    {nx : Next Pc' Res'} (hpc : s.pc t = some pc) (hadv : P.advance s.mem pc = (m', nx)) :
    Inv z (H.view (s.move t m' nx.point)) :=
  (H.stepView_of_advance hpc hadv).inv hinv

/-- **The ring's invariant holds at every instant of its host.** -/
theorem inv_of_execution {mem : σ} (hmem : H.ring mem = ⟨init, [], []⟩)
    (e : (P.system T mem).Execution) : ∀ k ≤ e.labels.length, Inv z (H.view (e.state k)) := by
  refine e.invariant (I := fun s => Inv z (H.view s)) ?_ ?_
  · show Inv z (⟨H.ring mem, fun _ => none⟩ : State T)
    rw [hmem]
    exact inv_init z
  · exact fun s l s' hinv hnext => (H.step_view hnext).inv hinv

/-! ## What a step does to one position -/

/-- At this step the thread's pop releases position `pos`. -/
def Releases (s : State T) (t : T) (pos : Nat) : Prop := ∃ out, s.pc t = some (.popRelease pos out)

theorem seq_published_of_effect {m m' : Traced} {p : Pc} {pc' : Option Pc}
    (heff : Effect z m p m' pc') (hok : PointOk z m p) {pos : Nat}
    (hseq : m.ring.seq (z.cell pos) = pos + 1) (hkept : ∀ out, p ≠ .popRelease pos out) :
    m'.ring.seq (z.cell pos) = pos + 1 := by
  cases heff with
  | read | claimTail | write | claimHead | take => exact hseq
  | publish value q =>
    -- the push's own cell is still at the position it writes
    have hq : m.ring.seq (z.cell q) = q := hok.1.seq
    have hne : z.cell pos ≠ z.cell q := by
      intro hcell
      rw [hcell, hq] at hseq
      rw [hseq] at hcell
      exact z.cell_succ_ne pos hcell.symm
    exact (Function.update_of_ne hne _ _).trans hseq
  | release q out =>
    have hq : m.ring.seq (z.cell q) = q + 1 := hok.seq
    have hne : z.cell pos ≠ z.cell q := by
      intro hcell
      rw [hcell, hq] at hseq
      obtain rfl : q = pos := by omega
      exact hkept out rfl
    exact (Function.update_of_ne hne _ _).trans hseq

/-- **A published position stays published until a pop releases it.** -/
theorem StepView.seq_published {s s' : State T} {t : T} (h : StepView z s t s') (hinv : Inv z s)
    {pos : Nat} (hseq : s.mem.ring.seq (z.cell pos) = pos + 1) (hkept : ¬ Releases s t pos) :
    s'.mem.ring.seq (z.cell pos) = pos + 1 := by
  cases h with
  | quiet pc' hidle hfresh => exact hseq
  | access p m' pc' hat hmem hnext =>
    subst hmem
    refine seq_published_of_effect (effect_advance z s.mem p) (hinv.points t p hat) hseq ?_
    rintro out rfl
    exact hkept ⟨out, hat⟩

/-! ## A look at the head -/

/-- The position `is_empty` or `peek` has read from the head and looks at the cell of. -/
def looking : Pc → Option Nat
  | .isEmptySeq pos => some pos
  | .peekSeq pos => some pos
  | _ => none

omit [DecidableEq T] in
/-- A look begins where the head is. -/
theorem looking_head {s : State T} {p p' : Pc} {pos : Nat}
    (h : ((program z).advance s.mem p).2 = .goto p') (hlook : looking p' = some pos) :
    s.mem.ring.head = pos ∧ ((program z).advance s.mem p).1.ring = s.mem.ring := by
  have hnext : (s.mem.ring.advance z p).2 = .goto p' := h
  cases p <;> simp only [advance] at hnext
  all_goals repeat' split at hnext
  all_goals cases hnext
  all_goals first | cases hlook; exact ⟨rfl, rfl⟩ | cases hlook

/-- The answer of a look that found its position unpublished. -/
def SaysEmpty : Res → Prop
  | .isEmpty empty => empty = true
  | .peeked out => out = none
  | _ => False

omit [DecidableEq T] in
/-- An answer "empty" comes from a sequence word that is not the position's. -/
theorem looking_of_empty {s : State T} {p : Pc} {res : Res}
    (h : ((program z).advance s.mem p).2 = .ret res) (hempty : SaysEmpty res) :
    ∃ pos, looking p = some pos ∧ s.mem.ring.seq (z.cell pos) ≠ pos + 1 := by
  have hnext : (s.mem.ring.advance z p).2 = .ret res := h
  cases p <;> simp only [advance] at hnext
  case peekSeq pos =>
    split at hnext
    · exact ⟨pos, rfl, ‹_›⟩
    · cases hnext
  case isEmptySeq pos =>
    cases hnext
    exact ⟨pos, rfl, fun heq => by simp [SaysEmpty, heq] at hempty⟩
  all_goals repeat' split at hnext
  all_goals cases hnext
  all_goals cases hempty

theorem looking_fresh {pc : Option Pc} (h : Fresh pc) {p : Pc} (hp : pc = some p) :
    looking p = none := by
  obtain ⟨op, rfl⟩ := h p hp
  cases op <;> rfl

/-- A pop releases the position thread `t` is looking at before `t` has read its sequence word. -/
def Overtaken {mem : σ} (e : (P.system T mem).Execution) (t : T) (k : Nat) : Prop :=
  ∃ p pos l, (H.view (e.state k)).pc t = some p ∧ looking p = some pos ∧ e.labels[k]? = some l ∧
    Releases (H.view (e.state k)) l.thread pos

omit [DecidableEq T] in
theorem seq_of_head {s : State T} (h : ¬ NothingAtHead z s) :
    s.mem.ring.seq (z.cell s.mem.ring.head) = s.mem.ring.head + 1 := by
  unfold NothingAtHead at h
  push Not at h
  obtain ⟨value, hseq, -⟩ := h
  exact hseq

/-- **What a look knows**: when it is not overtaken, nothing was at the head at some instant since
`i`, or its position is still published. -/
theorem look {mem : σ} (hmem : H.ring mem = ⟨init, [], []⟩) (e : (P.system T mem).Execution) {t : T}
    {i j : Nat} (hj : j ≤ e.labels.length)
    (hstart : ∀ p, (H.view (e.state (i + 1))).pc t = some p → looking p = none)
    (hnot : ∀ k, i < k → k < j → ¬ H.Overtaken e t k) {k : Nat} (hik : i < k) (hkj : k ≤ j)
    {p : Pc} {pos : Nat} (hp : (H.view (e.state k)).pc t = some p) (hlook : looking p = some pos) :
    (∃ m, i < m ∧ m ≤ k ∧ NothingAtHead z (H.view (e.state m))) ∨
      (H.view (e.state k)).mem.ring.seq (z.cell pos) = pos + 1 := by
  induction k, (show i + 1 ≤ k from hik) using Nat.le_induction generalizing p with
  | base =>
    rw [hstart p hp] at hlook
    cases hlook
  | succ k hik ih =>
    obtain ⟨l, hl⟩ := e.exists_label (show k < e.labels.length by omega)
    have hinv := H.inv_of_execution hmem e k (by omega)
    have hview := H.step_view (e.steps hl)
    rcases eq_or_ne t l.thread with rfl | hne
    · -- its own step: the look begins
      generalize H.view (e.state (k + 1)) = s' at hview hp ⊢
      cases hview with
      | quiet pc' hidle hfresh =>
        rw [Threads.State.move_pc_self] at hp
        rw [looking_fresh hfresh hp] at hlook
        cases hlook
      | access q m' pc' hat hmem' hnext =>
        rw [Threads.State.move_pc_self] at hp
        cases hres : ((program z).advance (H.view (e.state k)).mem q).2 with
        | ret res =>
          rw [hres] at hnext
          rw [looking_fresh hnext hp] at hlook
          cases hlook
        | goto q' =>
          rw [hres] at hnext
          obtain rfl : q' = p := Option.some.inj (hnext.symm.trans hp)
          obtain ⟨hhead, hsame⟩ := looking_head hres hlook
          rcases Classical.em (NothingAtHead z (H.view (e.state k))) with hnone | hsome
          · exact Or.inl ⟨k, by omega, by omega, hnone⟩
          · refine Or.inr ?_
            have hseq := seq_of_head hsome
            rw [hhead] at hseq
            show m'.ring.seq (z.cell pos) = pos + 1
            rw [hmem', hsame]
            exact hseq
    · -- another's step: it does not release the position
      have hat : (H.view (e.state k)).pc t = some p := (hview.pc_of_ne hne).symm.trans hp
      rcases ih (by omega) (by omega) hat hlook with ⟨m, him, hmk, hnone⟩ | hseq
      · exact Or.inl ⟨m, him, by omega, hnone⟩
      · refine Or.inr (hview.seq_published hinv hseq fun hrel => ?_)
        exact hnot k (by omega) (by omega) ⟨p, pos, l, hat, hlook, hl, hrel⟩

end Hosted

/-! ## One consumer -/

section

variable {z : Size} {m m' : Traced} {p p' : Pc}

theorem head_of_op (h : p.op ≠ .pop) : ((program z).advance m p).1.ring.head = m.ring.head := by
  cases p with
  | popExchange pos => exact absurd rfl h
  | pushExchange value pos =>
    simp only [program, advance]
    split <;> rfl
  | pushSeq value pos | popSeq pos =>
    simp only [program, advance]
    split
    · rfl
    · split <;> rfl
  | peekSeq pos =>
    simp only [program, advance]
    split <;> rfl
  | _ => rfl

theorem tail_le_advance : m.ring.tail ≤ ((program z).advance m p).1.ring.tail := by
  cases p with
  | pushExchange value pos =>
    simp only [program, advance]
    split
    · rename_i h
      exact h.le.trans (Nat.le_succ pos)
    · exact le_rfl
  | popExchange pos =>
    simp only [program, advance]
    split <;> exact le_rfl
  | pushSeq value pos | popSeq pos =>
    simp only [program, advance]
    split
    · exact le_rfl
    · split <;> exact le_rfl
  | peekSeq pos =>
    simp only [program, advance]
    split <;> exact le_rfl
  | _ => exact le_rfl

/-- Where the head is when its thread is the only one that pops. -/
def Pc.atHead : Pc → Option Nat
  | .popSeq pos => some pos
  | .popExchange pos => some pos
  | .popRead pos => some (pos + 1)
  | .popRelease pos _ => some (pos + 1)
  | .isEmptySeq pos => some pos
  | .peekSeq pos => some pos
  | .peekRead pos => some pos
  | _ => none

/-- What the only thread that pops knows of the head. -/
def KnowsHead (m : Traced) (p : Pc) : Prop := ∀ n, p.atHead = some n → m.ring.head = n

/-- A position read from the tail, not claimed yet. -/
def Pc.atTail : Pc → Option Nat
  | .pushSeq _ pos => some pos
  | .pushExchange _ pos => some pos
  | _ => none

/-- The tail has not moved back since it was read. -/
def KnowsTail (m : Traced) (p : Pc) : Prop := ∀ n, p.atTail = some n → n ≤ m.ring.tail

theorem knowsHead_goto (h : KnowsHead m p) (hadv : (program z).advance m p = (m', .goto p')) :
    KnowsHead m' p' := by
  have hnext : (m.ring.advance z p).2 = .goto p' := congrArg Prod.snd hadv
  have hmem : m'.ring.head = (m.ring.advance z p).1.head :=
    (congrArg (fun s => s.1.ring.head) hadv).symm
  intro n hn
  rw [hmem]
  cases p with
  | popExchange pos =>
    simp only [advance] at hnext ⊢
    split at hnext
    · cases hnext
      rw [if_pos ‹_›]
      exact Option.some.inj hn
    · cases hnext
      rw [if_neg ‹_›]
      exact Option.some.inj hn
  | popSeq pos =>
    simp only [advance] at hnext ⊢
    split at hnext
    · cases hnext
      rw [if_pos ‹_›]
      exact h n hn
    · split at hnext
      · cases hnext
      · cases hnext
        cases hn
  | peekSeq pos =>
    simp only [advance] at hnext ⊢
    split at hnext
    · cases hnext
    · cases hnext
      rw [if_neg ‹_›]
      exact h n hn
  | pushSeq value pos | pushExchange value pos =>
    simp only [advance] at hnext
    repeat' split at hnext
    all_goals cases hnext
    all_goals cases hn
  | popLoad | peekLoad | isEmptyLoad =>
    cases hnext
    exact Option.some.inj hn
  | popRead pos =>
    cases hnext
    exact h n hn
  | _ =>
    cases hnext
    try cases hn

theorem knowsTail_goto (h : KnowsTail m p) (hadv : (program z).advance m p = (m', .goto p')) :
    KnowsTail m' p' := by
  have hle : m.ring.tail ≤ m'.ring.tail := by
    have htail := tail_le_advance (z := z) (m := m) (p := p)
    rw [hadv] at htail
    exact htail
  have hnext : (m.ring.advance z p).2 = .goto p' := congrArg Prod.snd hadv
  intro n hn
  cases p <;> simp only [advance] at hnext
  all_goals repeat' split at hnext
  all_goals cases hnext
  all_goals first
    | (cases hn; done)
    | exact (Option.some.inj hn).symm.le.trans hle
    | exact (h n hn).trans hle

/-- The values pushed and not popped. -/
def Traced.queue (m : Traced) : List Int := m.pushed.drop m.popped.length

/-- **What an access does to the queue**: a push that claims its position adds its value at the
end, a pop that does takes the first. -/
theorem queue_of_effect {pc' : Option Pc} (h : Effect z m p m' pc')
    (hhead : m.popped.length = m.ring.head) (hle : m.popped.length ≤ m.pushed.length)
    (hle' : m'.popped.length ≤ m'.pushed.length) :
    (m'.pushed = m.pushed ∧ m'.queue = m.queue ∧ ∀ p', pc' = some p' → p'.claimed = p.claimed) ∨
    (∃ value pos, p = .pushExchange value pos ∧ pc' = some (.pushWrite value pos) ∧
      m'.queue = m.queue ++ [value]) ∨
    ∃ pos value, p = .popExchange pos ∧ pc' = some (.popRead pos) ∧ m'.pushed = m.pushed ∧
      m.pushed[pos]? = some value ∧ m.queue = value :: m'.queue := by
  cases h with
  | read p pc' hp hpc' => exact Or.inl ⟨rfl, rfl, fun p' hp' => (hpc' p' hp').1.trans hp.symm⟩
  | write value pos => exact Or.inl ⟨rfl, rfl, fun _ h => by cases h; rfl⟩
  | publish value pos => exact Or.inl ⟨rfl, rfl, nofun⟩
  | take pos => exact Or.inl ⟨rfl, rfl, fun _ h => by cases h; rfl⟩
  | release pos out => exact Or.inl ⟨rfl, rfl, nofun⟩
  | claimTail value pos htail =>
    exact Or.inr (Or.inl ⟨value, pos, rfl, rfl, List.drop_append_of_le_length hle⟩)
  | claimHead pos hpos =>
    obtain rfl : pos = m.popped.length := hpos.symm.trans hhead.symm
    have hlt : m.popped.length + 1 ≤ m.pushed.length := by simpa using hle'
    refine Or.inr (Or.inr ⟨_, _, rfl, rfl, rfl, List.getElem?_eq_getElem hlt, ?_⟩)
    unfold Traced.queue
    rw [List.length_append]
    exact List.drop_eq_getElem_cons hlt

/-- **A push goes on** when the ring has room for one more than it holds: nobody but the one thread
that pops is behind the head, and it is one position behind at most. -/
theorem Inv.room {T : Type} {s : State T} (h : Inv z s) {pos : Nat} (hpos : pos ≤ s.mem.ring.tail)
    (hroom : s.mem.ring.tail + 1 < s.mem.ring.head + z.capacity)
    (hsole : ∀ t pc q, s.pc t = some pc → pc.popping = some q → s.mem.ring.head ≤ q + 1) :
    pos ≤ s.mem.ring.seq (z.cell pos) := by
  have hcap := z.two_le_capacity
  obtain ⟨q, hcell, hat⟩ := h.cells _ (z.cell_le pos)
  -- whoever is at the cell is less than a lap behind
  have hlap : s.mem.ring.head ≤ q + 1 → pos ≤ q := by
    intro hq
    by_contra hlt
    have heq := z.cell_inj hcell (by omega) (by omega)
    omega
  rw [← hcell]
  cases hat with
  | free hseq htail hhead => rw [hseq]; exact hpos.trans htail
  | writing t pc hpc hclaim =>
    obtain ⟨_, hw⟩ := (h.points t pc hpc).writing hclaim
    rw [hw.seq]
    exact hlap (hw.head.trans (Nat.le_succ q))
  | published value hpub =>
    rw [hpub.seq]
    exact (hlap (hpub.head.trans (Nat.le_succ q))).trans (Nat.le_succ q)
  | taking t pc hpc hclaim =>
    obtain ⟨_, ht⟩ := (h.points t pc hpc).taking hclaim
    rw [ht.seq]
    exact (hlap (hsole t pc q hpc hclaim)).trans (Nat.le_succ q)

end

end Ring

end MojoHttp
