import MojoHttp.Lib.Execution
import Mathlib.Logic.Function.Basic

/-!
# Threads over a shared memory

Any number of threads run calls of a program over one memory. A thread in a call stands at a
program point; one step takes it through one atomic access to the next point, or out of the call.
Which thread steps is anybody's choice.

* **`Program.system`** — every interleaving, as a labelled system.
* **`Program.systemOf`** — the same when each thread has a role: the calls it may make.
* **`ReturnsAt`** — a call, from the labels alone: between its two ends its thread takes inner
  steps only.
* **`pc_of_call`** — what the points of a call are.
* **`call_of_pc`** — a thread at a point has started a call and not returned from it.
* **`entry_of_call`** — a point its thread stands at was entered by a step of that thread in that
  call.
-/

namespace Threads

/-- Where a step takes its thread: to a point of the call, or out of it with a result. -/
inductive Next (Pc Res : Type*) where
  | goto (pc : Pc)
  | ret (res : Res)

/-- The point behind a step, none behind a return. -/
def Next.point {Pc Res : Type*} : Next Pc Res → Option Pc
  | .goto pc => some pc
  | .ret _ => none

/-- The same step under other names of the points. -/
def Next.map {Pc Pc' Res : Type*} (f : Pc → Pc') : Next Pc Res → Next Pc' Res
  | .goto pc => .goto (f pc)
  | .ret res => .ret res

inductive Act (Op Res : Type*) where
  | call (op : Op)
  | go
  | ret (res : Res)
  deriving DecidableEq

/-- What a step's label says it did. -/
def Next.act {Pc Op Res : Type*} : Next Pc Res → Act Op Res
  | .goto _ => .go
  | .ret res => .ret res

@[simp] theorem Next.point_map {Pc Pc' Res : Type*} (f : Pc → Pc') (nx : Next Pc Res) :
    (nx.map f).point = nx.point.map f := by
  cases nx <;> rfl

/-- The calls of a program: the point each starts at, and the step from each point. -/
structure Program (σ Pc Op Res : Type*) where
  start : Op → Pc
  advance : σ → Pc → σ × Next Pc Res

structure Label (T Op Res : Type*) where
  thread : T
  act : Act Op Res

/-- The memory, and the point each thread in a call stands at. -/
structure State (T σ Pc : Type*) where
  mem : σ
  pc : T → Option Pc

variable {T σ Pc Op Res : Type*} [DecidableEq T] [DecidableEq Res]

namespace State

/-- The state with a new memory and thread `t` at a new point. -/
def move (s : State T σ Pc) (t : T) (mem : σ) (pc : Option Pc) : State T σ Pc :=
  ⟨mem, Function.update s.pc t pc⟩

@[simp] theorem move_mem (s : State T σ Pc) (t : T) (mem : σ) (pc : Option Pc) :
    (s.move t mem pc).mem = mem := rfl

@[simp] theorem move_pc_self (s : State T σ Pc) (t : T) (mem : σ) (pc : Option Pc) :
    (s.move t mem pc).pc t = pc := Function.update_self ..

theorem move_pc_of_ne (s : State T σ Pc) {t u : T} (mem : σ) (pc : Option Pc) (h : u ≠ t) :
    (s.move t mem pc).pc u = s.pc u := Function.update_of_ne h ..

/-- What holds of every thread at its point, when one thread has moved. -/
theorem forall_move {s : State T σ Pc} {t : T} {mem : σ} {pc : Option Pc} {Q : T → Pc → Prop}
    (hold : ∀ u p, u ≠ t → s.pc u = some p → Q u p) (hnew : ∀ p, pc = some p → Q t p) :
    ∀ u p, (s.move t mem pc).pc u = some p → Q u p := by
  intro u p hp
  rcases eq_or_ne u t with rfl | hne
  · rw [s.move_pc_self] at hp
    exact hnew p hp
  · rw [s.move_pc_of_ne _ _ hne] at hp
    exact hold u p hne hp

end State

namespace Program

variable (P : Program σ Pc Op Res)

/-- One step of one thread. A label that returns says with what. -/
def next (s : State T σ Pc) (l : Label T Op Res) : Option (State T σ Pc) :=
  match l.act, s.pc l.thread with
  | .call op, none => some (s.move l.thread s.mem (some (P.start op)))
  | .go, some pc =>
    match P.advance s.mem pc with
    | (mem, .goto pc') => some (s.move l.thread mem (some pc'))
    | (_, .ret _) => none
  | .ret res, some pc =>
    match P.advance s.mem pc with
    | (mem, .ret res') => if res' = res then some (s.move l.thread mem none) else none
    | (_, .goto _) => none
  | _, _ => none

variable (T) in
/-- The threads `T`, none of them in a call yet. -/
def system (mem : σ) : LabelledSystem (State T σ Pc) (Label T Op Res) where
  init := ⟨mem, fun _ => none⟩
  next := P.next

variable {P}

/-! ## What each label does -/

theorem next_call {s s' : State T σ Pc} {t : T} {op : Op} (h : P.next s ⟨t, .call op⟩ = some s') :
    s.pc t = none ∧ s' = s.move t s.mem (some (P.start op)) := by
  unfold next at h
  cases hpc : s.pc t with
  | none =>
    simp only [hpc, Option.some.injEq] at h
    exact ⟨rfl, h.symm⟩
  | some pc => simp [hpc] at h

theorem next_go {s s' : State T σ Pc} {t : T} (h : P.next s ⟨t, .go⟩ = some s') :
    ∃ pc pc' mem, s.pc t = some pc ∧ P.advance s.mem pc = (mem, .goto pc') ∧
      s' = s.move t mem (some pc') := by
  unfold next at h
  cases hpc : s.pc t with
  | none => simp [hpc] at h
  | some pc =>
    simp only [hpc] at h
    split at h
    · rename_i mem pc' hadv
      exact ⟨pc, pc', mem, rfl, hadv, (Option.some.inj h).symm⟩
    · cases h

theorem next_ret {s s' : State T σ Pc} {t : T} {res : Res} (h : P.next s ⟨t, .ret res⟩ = some s') :
    ∃ pc mem, s.pc t = some pc ∧ P.advance s.mem pc = (mem, .ret res) ∧
      s' = s.move t mem none := by
  unfold next at h
  cases hpc : s.pc t with
  | none => simp [hpc] at h
  | some pc =>
    simp only [hpc] at h
    split at h
    · rename_i mem res' hadv
      split at h
      · rename_i hres
        subst hres
        exact ⟨pc, mem, rfl, hadv, (Option.some.inj h).symm⟩
      · cases h
    · cases h

/-- A step moves its own thread only. -/
theorem next_pc_of_ne {s s' : State T σ Pc} {l : Label T Op Res} (h : P.next s l = some s') {u : T}
    (hu : u ≠ l.thread) : s'.pc u = s.pc u := by
  obtain ⟨t, act⟩ := l
  cases act with
  | call op =>
    obtain ⟨-, rfl⟩ := next_call h
    exact s.move_pc_of_ne _ _ hu
  | go =>
    obtain ⟨_, _, _, -, -, rfl⟩ := next_go h
    exact s.move_pc_of_ne _ _ hu
  | ret res =>
    obtain ⟨_, _, -, -, rfl⟩ := next_ret h
    exact s.move_pc_of_ne _ _ hu

/-- **An invariant of memory and points**: kept by every call that starts, by every step inside a
call and by every step out of one. -/
theorem invariant_of_steps {mem : σ} {I : State T σ Pc → Prop}
    (hinit : I ⟨mem, fun _ => none⟩)
    (hcall : ∀ s t op, I s → s.pc t = none → I (s.move t s.mem (some (P.start op))))
    (hgo : ∀ s t pc mem' pc', I s → s.pc t = some pc → P.advance s.mem pc = (mem', .goto pc') →
      I (s.move t mem' (some pc')))
    (hret : ∀ s t pc mem' res, I s → s.pc t = some pc → P.advance s.mem pc = (mem', .ret res) →
      I (s.move t mem' none))
    (e : (P.system T mem).Execution) : ∀ k ≤ e.labels.length, I (e.state k) := by
  refine e.invariant hinit ?_
  intro s l s' hI h
  obtain ⟨t, act⟩ := l
  cases act with
  | call op =>
    obtain ⟨hpc, rfl⟩ := next_call h
    exact hcall s t op hI hpc
  | go =>
    obtain ⟨pc, pc', mem', hpc, hadv, rfl⟩ := next_go h
    exact hgo s t pc mem' pc' hI hpc hadv
  | ret res =>
    obtain ⟨pc, mem', hpc, hadv, rfl⟩ := next_ret h
    exact hret s t pc mem' res hI hpc hadv

/-! ## Roles -/

variable (P)

/-- One step, when a thread makes only the calls it may. -/
def nextOf (may : T → Op → Bool) (s : State T σ Pc) (l : Label T Op Res) : Option (State T σ Pc) :=
  match l.act with
  | .call op => if may l.thread op then P.next s l else none
  | _ => P.next s l

/-- The threads of `P.system`, each with the calls it may make. -/
def systemOf (may : T → Op → Bool) (mem : σ) : LabelledSystem (State T σ Pc) (Label T Op Res) where
  init := ⟨mem, fun _ => none⟩
  next := P.nextOf may

variable {P}

theorem next_of_nextOf {may : T → Op → Bool} {s s' : State T σ Pc} {l : Label T Op Res}
    (h : P.nextOf may s l = some s') :
    P.next s l = some s' ∧ ∀ op, l.act = .call op → may l.thread op = true := by
  unfold nextOf at h
  split at h
  · rename_i op hact
    split at h
    · rename_i hmay
      refine ⟨h, fun op' hact' => ?_⟩
      rw [hact] at hact'
      cases hact'
      exact hmay
    · cases h
  · rename_i hact
    exact ⟨h, fun op hop => absurd hop (hact op)⟩

/-- **What a step of threads with roles is**: the start of a call its thread may make, or a step of
the call it is in. -/
theorem step_of_roles {may : T → Op → Bool} {mem : σ} {e : (P.systemOf may mem).Execution} {k : ℕ}
    {t : T} {act : Act Op Res} (h : e.labels[k]? = some ⟨t, act⟩) :
    (∃ op, act = .call op ∧ (e.state k).pc t = none ∧ may t op = true ∧
      e.state (k + 1) = (e.state k).move t (e.state k).mem (some (P.start op))) ∨
    ∃ pc mem' nx, (e.state k).pc t = some pc ∧ P.advance (e.state k).mem pc = (mem', nx) ∧
      e.state (k + 1) = (e.state k).move t mem' nx.point ∧ act = nx.act := by
  obtain ⟨hnext, hmay⟩ := next_of_nextOf (e.steps h)
  cases act with
  | call op =>
    obtain ⟨hpc, hs⟩ := next_call hnext
    exact Or.inl ⟨op, rfl, hpc, hmay op rfl, hs⟩
  | go =>
    obtain ⟨pc, pc', mem', hpc, hadv, hs⟩ := next_go hnext
    exact Or.inr ⟨pc, mem', .goto pc', hpc, hadv, hs, rfl⟩
  | ret res =>
    obtain ⟨pc, mem', hpc, hadv, hs⟩ := next_ret hnext
    exact Or.inr ⟨pc, mem', .ret res, hpc, hadv, hs, rfl⟩

/-- **An invariant of a run of threads with roles**: kept by every call that is started in it, and
by every step of it. -/
theorem invariant_of_run {may : T → Op → Bool} {mem : σ} {I : State T σ Pc → Prop}
    (e : (P.systemOf may mem).Execution) (hinit : I ⟨mem, fun _ => none⟩)
    (hcall : ∀ s t op, I s → s.pc t = none → may t op = true →
      I (s.move t s.mem (some (P.start op))))
    (hstep : ∀ k t act pc mem' nx, e.labels[k]? = some ⟨t, act⟩ → I (e.state k) →
      (e.state k).pc t = some pc → P.advance (e.state k).mem pc = (mem', nx) →
      I ((e.state k).move t mem' nx.point)) :
    ∀ k ≤ e.labels.length, I (e.state k) := by
  intro k hk
  refine LabelledSystem.Execution.stays (Nat.zero_le k) hk (by rw [e.start]; exact hinit) ?_
  intro m l _ _ hl hI
  obtain ⟨t, act⟩ := l
  rcases step_of_roles hl with ⟨op, -, hpc, hmay, hs⟩ | ⟨pc, mem', nx, hpc, hadv, hs, -⟩
  · rw [hs]
    exact hcall _ t op hI hpc hmay
  · rw [hs]
    exact hstep m t act pc mem' nx hl hI hpc hadv

/-- **An invariant of threads with roles**: kept by every call a thread may start and by every
step of a thread in one. -/
theorem invariant_of_roles {may : T → Op → Bool} {mem : σ} {I : State T σ Pc → Prop}
    (hinit : I ⟨mem, fun _ => none⟩)
    (hcall : ∀ s t op, I s → s.pc t = none → may t op = true →
      I (s.move t s.mem (some (P.start op))))
    (hstep : ∀ s t pc mem' nx, I s → s.pc t = some pc → P.advance s.mem pc = (mem', nx) →
      I (s.move t mem' nx.point))
    (e : (P.systemOf may mem).Execution) : ∀ k ≤ e.labels.length, I (e.state k) :=
  invariant_of_run e hinit hcall fun _ t _ pc mem' nx _ hI => hstep _ t pc mem' nx hI

/-- A thread that takes no step is in no call. -/
theorem pc_of_silent {may : T → Op → Bool} {mem : σ} (e : (P.systemOf may mem).Execution) {t : T}
    (h : ∀ l ∈ e.labels, l.thread ≠ t) : ∀ k ≤ e.labels.length, (e.state k).pc t = none := by
  intro k hk
  refine LabelledSystem.Execution.stays (P := fun s : State T σ Pc => s.pc t = none)
    (Nat.zero_le k) hk (by rw [e.start]; rfl) ?_
  intro m l _ _ hl hpc
  rw [next_pc_of_ne (next_of_nextOf (e.steps hl)).1 (h l (List.mem_of_getElem? hl)).symm]
  exact hpc

/-- The same execution, of threads without roles. -/
def free {may : T → Op → Bool} {mem : σ} (e : (P.systemOf may mem).Execution) :
    (P.system T mem).Execution where
  labels := e.labels
  state := e.state
  start := e.start
  steps h := (next_of_nextOf (e.steps h)).1

end Program

/-! ## Calls -/

variable {P : Program σ Pc Op Res} {mem : σ} {e : (P.system T mem).Execution}

/-- Between the instants `i` and `j` thread `t` takes inner steps of its call only. -/
def InnerSteps (e : (P.system T mem).Execution) (t : T) (i j : ℕ) : Prop :=
  ∀ k act, i < k → k < j → e.labels[k]? = some ⟨t, act⟩ → act = .go

/-- The call that thread `t` is in behind step `i` returns `res` at step `j`. -/
structure ReturnsAt (e : (P.system T mem).Execution) (t : T) (i j : ℕ) (res : Res) : Prop where
  lt : i < j
  returns : e.labels[j]? = some ⟨t, .ret res⟩
  inner : InnerSteps e t i j

theorem ReturnsAt.lt_length {t : T} {i j : ℕ} {res : Res} (h : ReturnsAt e t i j res) :
    j < e.labels.length := LabelledSystem.Execution.lt_length h.returns

/-- The step out of a call. -/
theorem ReturnsAt.step {t : T} {i j : ℕ} {res : Res} (h : ReturnsAt e t i j res) :
    ∃ pc, (e.state j).pc t = some pc ∧
      P.advance (e.state j).mem pc = ((e.state (j + 1)).mem, .ret res) := by
  obtain ⟨pc, mem', hpc, hadv, hs⟩ := Program.next_ret (e.steps h.returns)
  exact ⟨pc, hpc, by rw [hadv, hs]; rfl⟩

/-- **What the steps of a call keep of its point**, behind any of its steps. -/
theorem pc_of_inner {Q : Pc → Prop} {t : T} {i j : ℕ}
    (hi : ∃ pc, (e.state (i + 1)).pc t = some pc ∧ Q pc)
    (hstep : ∀ m pc m' pc', Q pc → P.advance m pc = (m', .goto pc') → Q pc')
    (hinner : InnerSteps e t i j) {k : ℕ} (hik : i < k) (hkj : k ≤ j)
    (hk : k ≤ e.labels.length) : ∃ pc, (e.state k).pc t = some pc ∧ Q pc := by
  refine LabelledSystem.Execution.stays (P := fun s : State T σ Pc => ∃ pc, s.pc t = some pc ∧ Q pc)
    (show i + 1 ≤ k from hik) hk hi ?_
  intro m l him hmk hl ⟨pc, hpc, hq⟩
  obtain ⟨u, act⟩ := l
  rcases eq_or_ne t u with rfl | hne
  · -- the thread's own step is an inner one
    obtain rfl := hinner m act (by omega) (by omega) hl
    obtain ⟨pc₀, pc', mem', hpc₀, hadv, hs⟩ := Program.next_go (e.steps hl)
    rw [hpc] at hpc₀
    obtain rfl := Option.some.inj hpc₀
    exact ⟨pc', by rw [hs]; exact State.move_pc_self .., hstep _ _ _ _ hq hadv⟩
  · exact ⟨pc, by rw [Program.next_pc_of_ne (e.steps hl) hne]; exact hpc, hq⟩

theorem pc_of_start {t : T} {i : ℕ} {op : Op} (h : e.labels[i]? = some ⟨t, .call op⟩) :
    (e.state (i + 1)).pc t = some (P.start op) := by
  obtain ⟨-, hs⟩ := Program.next_call (e.steps h)
  rw [hs]
  exact State.move_pc_self ..

/-- **What the points of a call are**: `Q` of its first point, kept by its steps. -/
theorem pc_of_call {Q : Pc → Prop} {t : T} {i j : ℕ} {op : Op}
    (h : e.labels[i]? = some ⟨t, .call op⟩) (hstart : Q (P.start op))
    (hstep : ∀ m pc m' pc', Q pc → P.advance m pc = (m', .goto pc') → Q pc')
    (hinner : InnerSteps e t i j) {k : ℕ} (hik : i < k) (hkj : k ≤ j)
    (hk : k ≤ e.labels.length) : ∃ pc, (e.state k).pc t = some pc ∧ Q pc :=
  pc_of_inner ⟨_, pc_of_start h, hstart⟩ hstep hinner hik hkj hk

/-- **The step of a call its thread came to a point by**: when it stands at a point with `Q` at
`j` and did not at the start, an inner step of its own took it there, and it has stood at such
points since. -/
theorem entry_of_call {Q : Pc → Prop} {t : T} {i j : ℕ} {op : Op}
    (h : e.labels[i]? = some ⟨t, .call op⟩) (hstart : ¬ Q (P.start op))
    (hinner : InnerSteps e t i j) (hij : i < j) (hj : j ≤ e.labels.length) {pcj : Pc}
    (hpcj : (e.state j).pc t = some pcj) (hq : Q pcj) :
    ∃ k pc pc', i < k ∧ k < j ∧ e.labels[k]? = some ⟨t, .go⟩ ∧ (e.state k).pc t = some pc ∧
      ¬ Q pc ∧ P.advance (e.state k).mem pc = ((e.state (k + 1)).mem, .goto pc') ∧ Q pc' ∧
      (e.state (k + 1)).pc t = some pc' ∧
      ∀ m, k < m → m ≤ j → ∃ pc, (e.state m).pc t = some pc ∧ Q pc := by
  have hat := pc_of_start h
  have hfirst : ¬ ∃ pc, (e.state (i + 1)).pc t = some pc ∧ Q pc := by
    rintro ⟨pc, hpc, hqpc⟩
    rw [hat] at hpc
    exact hstart (Option.some.inj hpc ▸ hqpc)
  obtain ⟨k, hik, hkj, hnot, hsince⟩ := LabelledSystem.Execution.last_entry
    (P := fun s : State T σ Pc => ∃ pc, s.pc t = some pc ∧ Q pc) (show i + 1 ≤ j from hij) hfirst ⟨pcj, hpcj, hq⟩
  obtain ⟨⟨u, act⟩, hl⟩ := e.exists_label (show k < e.labels.length by omega)
  have hafter := hsince (k + 1) (by omega) (by omega)
  rcases eq_or_ne t u with rfl | hne
  · obtain rfl := hinner k act (by omega) hkj hl
    obtain ⟨pc, pc', mem', hpc, hadv, hs⟩ := Program.next_go (e.steps hl)
    have hpc' : (e.state (k + 1)).pc t = some pc' := by
      rw [hs]
      exact State.move_pc_self ..
    obtain ⟨pc'', hpc'', hq''⟩ := hafter
    rw [hpc'] at hpc''
    obtain rfl := Option.some.inj hpc''
    refine ⟨k, pc, pc', by omega, hkj, hl, hpc, fun hqpc => hnot ⟨pc, hpc, hqpc⟩, ?_, hq'', hpc',
      hsince⟩
    rw [hadv, hs]
    rfl
  · -- another thread's step leaves it where it was
    rw [Program.next_pc_of_ne (e.steps hl) hne] at hafter
    exact absurd hafter hnot

/-- **A thread at a point is in a call**: its last call started, and has taken inner steps since. -/
theorem call_of_pc {t : T} {k : ℕ} (hk : k ≤ e.labels.length) {pc : Pc}
    (hpc : (e.state k).pc t = some pc) :
    ∃ i op, i < k ∧ e.labels[i]? = some ⟨t, .call op⟩ ∧ InnerSteps e t i k := by
  have hinit : ¬ ((e.state 0).pc t ≠ none) := by
    rw [e.start]
    exact fun h => h rfl
  obtain ⟨i, -, hik, hidle, hsince⟩ := LabelledSystem.Execution.last_entry
    (P := fun s : State T σ Pc => s.pc t ≠ none) (Nat.zero_le k) hinit (by rw [hpc]; simp)
  have hnone : (e.state i).pc t = none := not_not.mp hidle
  obtain ⟨⟨u, act⟩, hl⟩ := e.exists_label (show i < e.labels.length by omega)
  have hafter := hsince (i + 1) (by omega) (by omega)
  rcases eq_or_ne t u with rfl | hne
  · cases act with
    | call op =>
      refine ⟨i, op, hik, hl, fun m act him hmk hm => ?_⟩
      have hrun := hsince m him (by omega)
      have hnext := hsince (m + 1) (by omega) (by omega)
      cases act with
      | call op' => exact absurd (Program.next_call (e.steps hm)).1 hrun
      | go => rfl
      | ret res =>
        obtain ⟨_, _, -, -, hs⟩ := Program.next_ret (e.steps hm)
        rw [hs] at hnext
        exact absurd (State.move_pc_self ..) hnext
    | go =>
      obtain ⟨_, _, _, hrun, -, -⟩ := Program.next_go (e.steps hl)
      rw [hnone] at hrun
      cases hrun
    | ret res =>
      obtain ⟨_, _, hrun, -, -⟩ := Program.next_ret (e.steps hl)
      rw [hnone] at hrun
      cases hrun
  · rw [Program.next_pc_of_ne (e.steps hl) hne] at hafter
    exact absurd hafter hidle

end Threads
