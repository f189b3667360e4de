import MojoHttp.AcceptShare

/-!
# The count of pending hand-offs

`pending` of an index is never below what is in its channel and what was received there and not
retired, whoever received it. A leaver that has read the count as covered keeps an empty channel:
a sender that raises the count later reads the state after that, and takes the count back.

* **`LineOk`** — a line's count covers its channel, the senders that have announced, and what was
  received; `taken` never says more than that.
* **`PointOk`** — what holds at each point.
* **`Change`** — what one step does to the one line it touches, as all the other threads see it.
* **`sound_of_execution`** — the two hold at every instant.
-/

namespace MojoHttp.AcceptShare

open Threads (Next Program)

/-! ## The invariant -/

/-- What a process has received and not retired. -/
def Process.received : Process → Nat
  | .running drained _ => drained
  | .closing received => received
  | _ => 0

/-- What was received off the line's channel and not retired: by its process, and by the workers
reaped before it. -/
def Line.received (l : Line) : Nat := l.lost + l.process.received

/-- `taken` says no more than what its process will retire. -/
def TakenOk (l : Line) : Prop :=
  match l.process with
  | .running drained _ => l.taken ≤ drained
  | .starting => l.taken = 0
  | _ => l.taken ≤ l.lost

structure LineOk (l : Line) : Prop where
  covered : (l.channel.length + l.announced.length + l.received : Int) ≤ l.pending
  nonneg : 0 ≤ l.taken
  taken : TakenOk l
  left : ∀ drained, l.process = .running drained true → l.state = stateLeft

/-- What a worker at a point knows of its own line. -/
def StepOk (l : Line) : Step → Prop
  | .startLoad => l.process = .bound
  | .startStore taken => l.process = .bound ∧ l.taken = taken ∧ 0 < taken
  | .startRetire taken => l.process = .starting ∧ 0 < taken ∧ taken ≤ l.lost
  | .passEndRetire => l.taken = 0
  | .passEndFloor => False
  | _ => True

/-- The same of the supervisor's drain. -/
def CloseOk (l : Line) : Close → Prop
  | .begin _ => True
  | .zero took => (∃ r, l.process = .closing r) ∧ l.taken = took
  | .retire took => (∃ r, l.process = .closing r) ∧ l.taken = 0 ∧ 0 ≤ took ∧ took ≤ l.lost
  | .floor => False
  | _ => ∃ r, l.process = .closing r

/-- The sibling whose count a point's thread has raised. -/
def Step.target : Step → Option Nat
  | .check target _ _ | .post target _ _ | .takeBack target => some target
  | _ => none

structure WorkerOk (m : Page) (w life : Nat) (step : Step) : Prop where
  forked : (m w).life < life → ∃ act : AcceptShare.Act, step = act.first
  own : (m w).life = life → StepOk (m w) step
  announced : ∀ target, step.target = some target →
    target ≠ w ∧ Who.worker w life ∈ (m target).announced

def PointOk (m : Page) (t : Who) : Pc → Prop
  | .worker w life step => t = .worker w life ∧ WorkerOk m w life step
  | .close w c => t = .supervisor ∧ CloseOk (m w) c
  | _ => t = .supervisor

structure Sound (s : State) : Prop where
  line : ∀ w, LineOk (s.mem w)
  point : ∀ t pc, s.pc t = some pc → PointOk s.mem t pc

/-! ## The page -/

@[simp] theorem Page.set_self (m : Page) (w : Nat) (f : Line → Line) : m.set w f w = f (m w) :=
  Function.update_self ..

theorem Page.set_of_ne (m : Page) {u w : Nat} (f : Line → Line) (h : u ≠ w) : m.set w f u = m u :=
  Function.update_of_ne h ..

/-- The first access of a call has announced nothing and needs nothing of the line. -/
theorem workerOk_first {m : Page} {w life : Nat} (act : AcceptShare.Act) :
    WorkerOk m w life act.first where
  forked _ := ⟨act, rfl⟩
  own _ := by cases act <;> trivial
  announced target h := by cases act <;> cases h

/-! ## What a step does to a line

A sender's step leaves the line's process and what it has taken alone; the line's own worker and
the supervisor leave the announcements alone. -/

/-- The change of line `v` by a step of thread `t`, as the other threads see it. -/
structure Change (t : Who) (v : Nat) (l l' : Line) : Prop where
  life : l.life ≤ l'.life
  announced : ∀ u, u ≠ t → u ∈ l.announced → u ∈ l'.announced
  step : ∀ life step, t ≠ .worker v life →
    (l.life < life → ∃ act : AcceptShare.Act, step = act.first) →
    (l.life = life → StepOk l step) → l'.life = life → StepOk l' step
  close : t ≠ .supervisor → ∀ c, CloseOk l c → CloseOk l' c

theorem Change.refl {t : Who} {v : Nat} {l : Line} : Change t v l l where
  life := Nat.le_refl _
  announced _ _ h := h
  step _ _ _ _ h hlife := h hlife
  close _ _ h := h

theorem stepOk_congr {l l' : Line} {step : Step} (hprocess : l'.process = l.process)
    (htaken : l'.taken = l.taken) (hlost : l'.lost = l.lost) :
    StepOk l' step ↔ StepOk l step := by
  cases step <;> simp only [StepOk, hprocess, htaken, hlost]

theorem closeOk_congr {l l' : Line} {c : Close} (hprocess : l'.process = l.process)
    (htaken : l'.taken = l.taken) (hlost : l'.lost = l.lost) :
    CloseOk l' c ↔ CloseOk l c := by
  cases c <;> simp only [CloseOk, hprocess, htaken, hlost]

/-- A sender leaves the process of the line and what it has taken alone. -/
theorem Change.of_sender {t : Who} {v : Nat} {l l' : Line} (hlife : l'.life = l.life)
    (hprocess : l'.process = l.process) (htaken : l'.taken = l.taken) (hlost : l'.lost = l.lost)
    (hann : ∀ u, u ≠ t → u ∈ l.announced → u ∈ l'.announced) : Change t v l l' where
  life := Nat.le_of_eq hlife.symm
  announced := hann
  step _ _ _ _ h hl := (stepOk_congr hprocess htaken hlost).mpr (h (hlife ▸ hl))
  close _ _ h := (closeOk_congr hprocess htaken hlost).mpr h

/-- The worker of a line leaves the announcements alone, and does nothing while the line is being
drained. -/
theorem Change.of_owner {v life : Nat} {l l' : Line} (hl : l.life = life) (hlife : l'.life = l.life)
    (hann : l'.announced = l.announced) (hclosing : ∀ r, l.process ≠ .closing r) :
    Change (.worker v life) v l l' where
  life := Nat.le_of_eq hlife.symm
  announced u _ h := hann ▸ h
  step life' step ht _ _ h := by
    -- a second worker of the line would have the same life
    refine absurd ?_ ht
    rw [← h, hlife, hl]
  close _ c h := by
    cases c with
    | begin rounds => trivial
    | floor => exact h
    | zero took =>
      obtain ⟨r, hr⟩ := h.1
      exact absurd hr (hclosing r)
    | retire took =>
      obtain ⟨r, hr⟩ := h.1
      exact absurd hr (hclosing r)
    | _ =>
      obtain ⟨r, hr⟩ := h
      exact absurd hr (hclosing r)

/-- The supervisor changes the process of a line without a starting worker. -/
theorem Change.of_supervisor {v : Nat} {l l' : Line} (hlife : l'.life = l.life)
    (hann : l'.announced = l.announced) (htaken : l'.taken = l.taken ∨ l'.taken = 0)
    (hbound : l.process ≠ .bound) (hstarting : l.process ≠ .starting) :
    Change .supervisor v l l' where
  life := Nat.le_of_eq hlife.symm
  announced u _ h := hann ▸ h
  step life step _ _ h hl := by
    have hold := h (hlife ▸ hl)
    cases step with
    | startLoad => exact absurd hold hbound
    | startStore taken => exact absurd hold.1 hbound
    | startRetire taken => exact absurd hold.1 hstarting
    | passEndRetire =>
      have h0 : l.taken = 0 := hold
      show l'.taken = 0
      omega
    | passEndFloor => exact hold
    | _ => trivial
  close h := absurd rfl h

/-- Behind the reaping no worker of the line has begun. -/
theorem Change.of_reap {v : Nat} {l l' : Line} (hlife : l'.life = l.life + 1)
    (hann : l'.announced = l.announced) : Change .supervisor v l l' where
  life := by omega
  announced u _ h := hann ▸ h
  step life step _ hforked _ hl := by
    obtain ⟨act, rfl⟩ := hforked (by omega)
    cases act <;> trivial
  close h := absurd rfl h

/-- A step of thread `t` that touches line `v` only. -/
structure Moves (m m' : Page) (t : Who) (v : Nat) : Prop where
  other : ∀ u, u ≠ v → m' u = m u
  change : Change t v (m v) (m' v)

theorem Moves.refl {m : Page} {t : Who} {v : Nat} : Moves m m t v := ⟨fun _ _ => rfl, Change.refl⟩

theorem Moves.set {m : Page} {t : Who} {v : Nat} {f : Line → Line}
    (h : Change t v (m v) (f (m v))) : Moves m (m.set v f) t v :=
  ⟨fun _ hne => m.set_of_ne f hne, by rwa [Page.set_self]⟩

/-- A step keeps what holds at the points of the other threads. -/
theorem Moves.pointOk {m m' : Page} {t u : Who} {v : Nat} (h : Moves m m' t v) (hne : u ≠ t)
    {pc : Pc} (hp : PointOk m u pc) : PointOk m' u pc := by
  cases pc with
  | worker w life step =>
    obtain ⟨rfl, hw⟩ := hp
    refine ⟨rfl, ⟨?_, ?_, ?_⟩⟩
    · intro hlt
      refine hw.forked (Nat.lt_of_le_of_lt ?_ hlt)
      rcases eq_or_ne w v with rfl | hwv
      · exact h.change.life
      · exact Nat.le_of_eq (congrArg Line.life (h.other w hwv)).symm
    · intro hlife
      rcases eq_or_ne w v with rfl | hwv
      · exact h.change.step life step hne.symm hw.forked hw.own hlife
      · rw [h.other w hwv] at hlife ⊢
        exact hw.own hlife
    · intro target htarget
      obtain ⟨hself, hmem⟩ := hw.announced target htarget
      refine ⟨hself, ?_⟩
      rcases eq_or_ne target v with rfl | htv
      · exact h.change.announced _ hne hmem
      · rwa [h.other target htv]
  | close w c =>
    obtain ⟨rfl, hc⟩ := hp
    refine ⟨rfl, ?_⟩
    rcases eq_or_ne w v with rfl | hwv
    · exact h.change.close hne.symm c hc
    · rwa [h.other w hwv]
  | fork w => exact hp
  | reap w => exact hp
  | mark w => exact hp

/-! ## A worker's step -/

/-- What a step of worker `w` leaves behind. -/
structure WorkerStep (m : Page) (w life : Nat) (r : Page × Next Step Res) : Prop where
  line : ∀ v, LineOk (r.1 v)
  moves : ∃ v, Moves m r.1 (.worker w life) v
  next : ∀ step, r.2.point = some step → WorkerOk r.1 w life step

variable {workers : Nat} {m : Page} {w life : Nat}

theorem WorkerStep.same {nx : Next Step Res} (hline : ∀ v, LineOk (m v))
    (hnext : ∀ step, nx.point = some step → WorkerOk m w life step) :
    WorkerStep m w life (m, nx) :=
  ⟨hline, ⟨w, Moves.refl⟩, hnext⟩

theorem WorkerStep.refused {res : Res} (hline : ∀ v, LineOk (m v)) :
    WorkerStep m w life (m, .ret res) :=
  .same hline fun _ h => nomatch h

theorem lineOk_set {f : Line → Line} (hline : ∀ v, LineOk (m v)) (h : LineOk (f (m w))) (v : Nat) :
    LineOk (m.set w f v) := by
  rcases eq_or_ne v w with rfl | hne
  · rwa [Page.set_self]
  · rw [m.set_of_ne f hne]
    exact hline v

theorem workerOk_own {f : Line → Line} {step : Step} (hlife : (f (m w)).life = life)
    (htarget : step.target = none) (hstep : StepOk (f (m w)) step) :
    WorkerOk (m.set w f) w life step where
  forked hlt := by
    rw [Page.set_self, hlife] at hlt
    exact absurd hlt (Nat.lt_irrefl _)
  own _ := by rwa [Page.set_self]
  announced target ht := by
    rw [htarget] at ht
    cases ht

theorem workerOk_send {target : Nat} {f : Line → Line} {step : Step} (hlife : (m w).life = life)
    (hne : target ≠ w) (hstep : ∀ l, StepOk l step) (htarget : step.target = some target)
    (hmem : Who.worker w life ∈ (f (m target)).announced) :
    WorkerOk (m.set target f) w life step where
  forked hlt := by
    rw [m.set_of_ne f hne.symm, hlife] at hlt
    exact absurd hlt (Nat.lt_irrefl _)
  own _ := hstep _
  announced target' ht := by
    rw [htarget] at ht
    obtain rfl := Option.some.inj ht
    exact ⟨hne, by rwa [Page.set_self]⟩

/-- The worker stays on its own line. -/
theorem WorkerStep.own {f : Line → Line} {nx : Next Step Res} (hline : ∀ v, LineOk (m v))
    (hlife : (m w).life = life) (hok : LineOk (f (m w))) (hlife' : (f (m w)).life = (m w).life)
    (hann : (f (m w)).announced = (m w).announced) (hclosing : ∀ r, (m w).process ≠ .closing r)
    (hnext : ∀ step, nx.point = some step → step.target = none ∧ StepOk (f (m w)) step) :
    WorkerStep m w life (m.set w f, nx) where
  line := lineOk_set hline hok
  moves := ⟨w, Moves.set (Change.of_owner hlife hlife' hann hclosing)⟩
  next step h := workerOk_own (hlife'.trans hlife) (hnext step h).1 (hnext step h).2

/-- The worker sends to line `target`, and only counts and queues there. -/
theorem WorkerStep.send {target : Nat} {f : Line → Line} {nx : Next Step Res}
    (hline : ∀ v, LineOk (m v)) (hlife : (m w).life = life) (hne : target ≠ w)
    (hok : LineOk (f (m target)))
    (hchange : Change (.worker w life) target (m target) (f (m target)))
    (hnext : ∀ step, nx.point = some step → (∀ l, StepOk l step) ∧ step.target = some target ∧
      Who.worker w life ∈ (f (m target)).announced) :
    WorkerStep m w life (m.set target f, nx) where
  line := lineOk_set hline hok
  moves := ⟨target, Moves.set hchange⟩
  next step h := workerOk_send hlife hne (hnext step h).1 (hnext step h).2.1 (hnext step h).2.2

/-- The count of a line whose sender has sent, or taken back, one less than before. -/
theorem length_erase {t : Who} {l : List Who} (h : t ∈ l) : (l.erase t).length + 1 = l.length := by
  rw [List.length_erase_of_mem h]
  have := List.length_pos_of_mem h
  omega

/-- **A worker's step keeps every line, and what holds at its own next point.** -/
theorem workerStep_ok {step : Step} (hline : ∀ v, LineOk (m v)) (hlife : (m w).life = life)
    (hw : WorkerOk m w life step) : WorkerStep m w life (workerStep workers m w life step) := by
  have hown := hw.own hlife
  obtain ⟨hcov, hnn, htk, hleft⟩ := hline w
  cases step with
  | bind =>
    simp only [workerStep]
    split
    · rename_i hp _
      apply WorkerStep.own hline hlife
      · refine ⟨?_, ?_, ?_, ?_⟩
        all_goals simp_all [Line.received, Process.received, TakenOk]
      · rfl
      · rfl
      · simp [hp]
      · exact fun _ h => nomatch h
    · exact .refused hline
  | startState =>
    simp only [workerStep]
    split
    · rename_i hp
      apply WorkerStep.own hline hlife
      · refine ⟨?_, ?_, ?_, ?_⟩
        all_goals simp_all [Line.received, Process.received, TakenOk]
      · rfl
      · rfl
      · simp [hp]
      · intro step h
        cases h
        exact ⟨rfl, hp⟩
    · exact .refused hline
  | startLoad =>
    have hp : (m w).process = .bound := hown
    simp only [workerStep]
    split
    · rename_i hpos
      refine .same hline fun step h => ?_
      cases h
      exact ⟨fun hlt => absurd hlt (by omega), fun _ => ⟨hp, rfl, hpos⟩, fun _ h => nomatch h⟩
    · apply WorkerStep.own hline hlife
      · refine ⟨?_, ?_, ?_, ?_⟩
        all_goals simp_all [Line.received, Process.received, TakenOk]
      · rfl
      · rfl
      · simp [hp]
      · exact fun _ h => nomatch h
  | startStore taken =>
    obtain ⟨hp, rfl, hpos⟩ := hown
    simp only [workerStep]
    apply WorkerStep.own hline hlife
    · refine ⟨?_, ?_, ?_, ?_⟩
      all_goals simp_all [Line.received, Process.received, TakenOk]
    · rfl
    · rfl
    · simp [hp]
    · intro step h
      cases h
      simp only [TakenOk, hp] at htk
      exact ⟨rfl, rfl, hpos, htk⟩
  | startRetire taken =>
    obtain ⟨hp, hpos, hle⟩ := hown
    simp only [workerStep]
    apply WorkerStep.own hline hlife
    · simp only [TakenOk, hp] at htk
      refine ⟨?_, ?_, ?_, ?_⟩
      all_goals simp_all [Line.received, Process.received, TakenOk]
      omega
    · rfl
    · rfl
    · simp [hp]
    · exact fun _ h => nomatch h
  | passBegin now =>
    simp only [workerStep]
    split
    · rename_i hp
      apply WorkerStep.own hline hlife
      · refine ⟨?_, ?_, ?_, ?_⟩
        all_goals simp_all [Line.received, Process.received, TakenOk]
      · rfl
      · rfl
      · simp [hp]
      · exact fun _ h => nomatch h
    · exact .refused hline
    · exact .refused hline
  | receive =>
    simp only [workerStep]
    split
    · exact .refused hline
    · rename_i hp hch
      apply WorkerStep.own hline hlife
      · simp only [TakenOk, hp] at htk
        refine ⟨?_, ?_, ?_, ?_⟩
        all_goals simp_all [Line.received, Process.received, TakenOk]
        all_goals omega
      · rfl
      · rfl
      · simp [hp]
      · intro step h
        cases h
        exact ⟨rfl, trivial⟩
    · exact .refused hline
  | receiveStore fd =>
    simp only [workerStep]
    split
    · rename_i hp
      apply WorkerStep.own hline hlife
      · refine ⟨?_, ?_, ?_, ?_⟩
        all_goals simp_all [Line.received, Process.received, TakenOk]
      · rfl
      · rfl
      · simp [hp]
      · exact fun _ h => nomatch h
    · exact .refused hline
  | passEnd =>
    simp only [workerStep]
    split
    · rename_i hp
      split
      · apply WorkerStep.own hline hlife
        · refine ⟨?_, ?_, ?_, ?_⟩
          all_goals simp_all [Line.received, Process.received, TakenOk]
        · rfl
        · rfl
        · simp [hp]
        · intro step h
          cases h
          exact ⟨rfl, rfl⟩
      · refine .same hline fun step h => ?_
        cases h
        exact ⟨fun hlt => absurd hlt (by omega), fun _ => trivial, fun _ h => nomatch h⟩
    · exact .refused hline
  | passEndRetire =>
    have hzero : (m w).taken = 0 := hown
    simp only [workerStep]
    split
    · rename_i drained left hp
      simp only [Line.received, Process.received, hp] at hcov
      split
      · -- the count covers what the worker retires
        rename_i hneg
        exact absurd hneg (by omega)
      · apply WorkerStep.own hline hlife
        · refine ⟨?_, ?_, ?_, ?_⟩
          all_goals simp_all [Line.received, Process.received, TakenOk]
          omega
        · rfl
        · rfl
        · simp [hp]
        · intro step h
          cases h
          exact ⟨rfl, trivial⟩
    · exact .refused hline
  | passEndFloor => exact absurd hown id
  | passEndPark =>
    simp only [workerStep]
    split
    · rename_i hp
      apply WorkerStep.own hline hlife
      · refine ⟨?_, ?_, ?_, ?_⟩
        all_goals simp_all [Line.received, Process.received, TakenOk]
      · rfl
      · rfl
      · simp [hp]
      · exact fun _ h => nomatch h
    · exact .refused hline
  | leave =>
    simp only [workerStep]
    split
    · rename_i hp
      apply WorkerStep.own hline hlife
      · refine ⟨?_, ?_, ?_, ?_⟩
        all_goals simp_all [Line.received, Process.received, TakenOk]
      · rfl
      · rfl
      · simp [hp]
      · exact fun _ h => nomatch h
    · exact .refused hline
  | awaiting =>
    simp only [workerStep]
    split
    · exact .refused hline
    · exact .refused hline
  | raise target fd room =>
    simp only [workerStep]
    split
    · split
      · rename_i htarget
        obtain ⟨hcov', hnn', htk', hleft'⟩ := hline target
        apply WorkerStep.send hline hlife htarget.2
        · refine ⟨?_, hnn', htk', hleft'⟩
          simp only [Line.received, List.length_cons] at hcov' ⊢
          omega
        · exact Change.of_sender rfl rfl rfl rfl fun u _ h => List.mem_cons_of_mem _ h
        · intro step h
          cases h
          exact ⟨fun _ => trivial, rfl, List.mem_cons_self⟩
      · exact .refused hline
    · exact .refused hline
  | check target fd room =>
    obtain ⟨hne, hmem⟩ := hw.announced target rfl
    simp only [workerStep]
    refine .same hline fun step h => ?_
    split at h
    all_goals
      cases h
      refine ⟨fun hlt => absurd hlt (by omega), fun _ => trivial, fun target' h => ?_⟩
      obtain rfl := Option.some.inj h
      exact ⟨hne, hmem⟩
  | post target fd room =>
    obtain ⟨hne, hmem⟩ := hw.announced target rfl
    obtain ⟨hcov', hnn', htk', hleft'⟩ := hline target
    simp only [workerStep]
    split
    · apply WorkerStep.send hline hlife hne
      · -- the sender's announcement becomes its datagram
        have hlen := length_erase hmem
        refine ⟨?_, hnn', htk', hleft'⟩
        simp only [Line.received, List.length_append, List.length_singleton] at hcov' ⊢
        omega
      · exact Change.of_sender rfl rfl rfl rfl fun u hu h => (List.mem_erase_of_ne hu).mpr h
      · exact fun _ h => nomatch h
    · refine .same hline fun step h => ?_
      cases h
      refine ⟨fun hlt => absurd hlt (by omega), fun _ => trivial, fun target' h => ?_⟩
      obtain rfl := Option.some.inj h
      exact ⟨hne, hmem⟩
  | takeBack target =>
    obtain ⟨hne, hmem⟩ := hw.announced target rfl
    obtain ⟨hcov', hnn', htk', hleft'⟩ := hline target
    simp only [workerStep]
    apply WorkerStep.send hline hlife hne
    · have hlen := length_erase hmem
      refine ⟨?_, hnn', htk', hleft'⟩
      simp only [Line.received] at hcov' ⊢
      omega
    · exact Change.of_sender rfl rfl rfl rfl fun u hu h => (List.mem_erase_of_ne hu).mpr h
    · exact fun _ h => nomatch h

/-! ## The supervisor's step -/

/-- What a step of the supervisor leaves behind. -/
structure SupervisorStep (m : Page) (r : Page × Next Pc Res) : Prop where
  line : ∀ v, LineOk (r.1 v)
  moves : ∃ v, Moves m r.1 .supervisor v
  next : ∀ pc, r.2.point = some pc → PointOk r.1 .supervisor pc

theorem SupervisorStep.refused {res : Res} (hline : ∀ v, LineOk (m v)) :
    SupervisorStep m (m, .ret res) :=
  ⟨hline, ⟨0, Moves.refl⟩, fun _ h => nomatch h⟩

theorem SupervisorStep.set {f : Line → Line} {nx : Next Pc Res} (hline : ∀ v, LineOk (m v))
    (hok : LineOk (f (m w))) (hchange : Change .supervisor w (m w) (f (m w)))
    (hnext : ∀ pc, nx.point = some pc → PointOk (m.set w f) .supervisor pc) :
    SupervisorStep m (m.set w f, nx) :=
  ⟨lineOk_set hline hok, ⟨w, Moves.set hchange⟩, hnext⟩

/-- What a step of the supervisor's drain of line `w` leaves behind. -/
structure CloseStep (m : Page) (w : Nat) (r : Page × Next Close Res) : Prop where
  line : ∀ v, LineOk (r.1 v)
  moves : ∃ v, Moves m r.1 .supervisor v
  next : ∀ c, r.2.point = some c → CloseOk (r.1 w) c

theorem CloseStep.same {nx : Next Close Res} (hline : ∀ v, LineOk (m v))
    (hnext : ∀ c, nx.point = some c → CloseOk (m w) c) : CloseStep m w (m, nx) :=
  ⟨hline, ⟨w, Moves.refl⟩, hnext⟩

theorem CloseStep.refused {res : Res} (hline : ∀ v, LineOk (m v)) :
    CloseStep m w (m, .ret res) :=
  .same hline fun _ h => nomatch h

theorem CloseStep.set {f : Line → Line} {nx : Next Close Res} (hline : ∀ v, LineOk (m v))
    (hok : LineOk (f (m w))) (hchange : Change .supervisor w (m w) (f (m w)))
    (hnext : ∀ c, nx.point = some c → CloseOk (f (m w)) c) :
    CloseStep m w (m.set w f, nx) :=
  ⟨lineOk_set hline hok, ⟨w, Moves.set hchange⟩, fun c h => by
    show CloseOk (m.set w f w) c
    rw [Page.set_self]
    exact hnext c h⟩

/-- **A step of the drain keeps every line, and what holds at its own next point.** -/
theorem closeStep_ok {c : Close} (hline : ∀ v, LineOk (m v)) (hc : CloseOk (m w) c) :
    CloseStep m w (closeStep m w c) := by
  obtain ⟨hcov, hnn, htk, hleft⟩ := hline w
  cases c with
  | begin rounds =>
    simp only [closeStep]
    split
    · rename_i hp
      apply CloseStep.set hline
      · refine ⟨?_, ?_, ?_, ?_⟩
        all_goals simp_all [Line.received, Process.received, TakenOk]
      · exact Change.of_supervisor rfl rfl (.inl rfl) (by simp [hp]) (by simp [hp])
      · intro c h
        cases h
        exact ⟨0, rfl⟩
    · exact .refused hline
  | recv rounds =>
    obtain ⟨r, hr⟩ := hc
    simp only [closeStep]
    split
    · rename_i received _ _ hp hch
      apply CloseStep.set hline
      · refine ⟨?_, ?_, ?_, ?_⟩
        all_goals simp_all [Line.received, Process.received, TakenOk]
        omega
      · exact Change.of_supervisor rfl rfl (.inl rfl) (by simp [hp]) (by simp [hp])
      · intro c h
        cases h
        exact ⟨received + 1, rfl⟩
    · refine .same hline fun c h => ?_
      cases h
      exact ⟨r, hr⟩
  | pending rounds =>
    refine .same hline fun c h => ?_
    cases h
    exact hc
  | taken rounds pending =>
    simp only [closeStep]
    split
    · rename_i received hp
      split
      · refine .same hline fun c h => ?_
        cases h
        exact ⟨received, hp⟩
      · split
        all_goals
          refine .same hline fun c h => ?_
          cases h
          exact ⟨received, hp⟩
    · exact .refused hline
  | took =>
    refine .same hline fun c h => ?_
    cases h
    exact ⟨hc, rfl⟩
  | zero took =>
    obtain ⟨⟨r, hr⟩, rfl⟩ := hc
    simp only [closeStep]
    apply CloseStep.set hline
    · refine ⟨?_, ?_, ?_, ?_⟩
      all_goals simp_all [Line.received, Process.received, TakenOk]
    · exact Change.of_supervisor rfl rfl (.inr rfl) (by simp [hr]) (by simp [hr])
    · intro c h
      cases h
      simp only [TakenOk, hr] at htk
      exact ⟨⟨r, hr⟩, rfl, hnn, htk⟩
  | retire took =>
    obtain ⟨⟨r, hr⟩, hzero, hnn', hle⟩ := hc
    simp only [closeStep, hr]
    simp only [Line.received, Process.received, hr] at hcov
    split
    · split
      · -- what was taken and what was received are both covered
        rename_i hneg
        exact absurd hneg (by omega)
      · apply CloseStep.set hline
        · refine ⟨?_, ?_, ?_, ?_⟩
          all_goals simp_all [Line.received, Process.received, TakenOk]
          all_goals omega
        · exact Change.of_supervisor rfl rfl (.inl rfl) (by simp [hr]) (by simp [hr])
        · exact fun _ h => nomatch h
    · apply CloseStep.set hline
      · refine ⟨?_, ?_, ?_, ?_⟩
        all_goals simp_all [Line.received, Process.received, TakenOk]
        omega
      · exact Change.of_supervisor rfl rfl (.inl rfl) (by simp [hr]) (by simp [hr])
      · exact fun _ h => nomatch h
  | floor => exact absurd hc id

/-- A reaped process leaves behind what it had received. -/
theorem lineOk_reap {l : Line} (h : LineOk l) (hclosing : ∀ r, l.process ≠ .closing r) :
    LineOk { l with
      process := .none, life := l.life + 1, lost := l.lost + l.process.drained } := by
  obtain ⟨hcov, hnn, htk, hleft⟩ := h
  cases hp : l.process with
  | closing r => exact absurd hp (hclosing r)
  | _ =>
    refine ⟨?_, hnn, ?_, fun _ h => nomatch h⟩
    all_goals simp_all [Line.received, Process.received, Process.drained, TakenOk]
    try omega

/-- **Every step keeps every line, what holds at its own next point, and what the other threads see
of the one line it touches.** -/
theorem advance_ok {pc : Pc} {t : Who} (hline : ∀ v, LineOk (m v)) (hp : PointOk m t pc) :
    (∀ v, LineOk ((advance workers m pc).1 v)) ∧ (∃ v, Moves m (advance workers m pc).1 t v) ∧
      ∀ pc', (advance workers m pc).2.point = some pc' →
        PointOk (advance workers m pc).1 t pc' := by
  cases pc with
  | worker w life step =>
    obtain ⟨rfl, hw⟩ := hp
    simp only [advance]
    split
    · rename_i hlife
      obtain ⟨hline', hmoves, hnext⟩ := @workerStep_ok workers m w life step hline hlife hw
      refine ⟨hline', hmoves, fun pc' h => ?_⟩
      rw [Next.point_map, Option.map_eq_some_iff] at h
      obtain ⟨step', hstep', rfl⟩ := h
      exact ⟨rfl, hnext step' hstep'⟩
    · exact ⟨hline, ⟨0, Moves.refl⟩, fun _ h => nomatch h⟩
  | close w c =>
    obtain ⟨rfl, hc⟩ := hp
    obtain ⟨hline', hmoves, hnext⟩ := closeStep_ok hline hc
    refine ⟨hline', hmoves, fun pc' h => ?_⟩
    simp only [advance, Next.point_map, Option.map_eq_some_iff] at h
    obtain ⟨c', hc', rfl⟩ := h
    exact ⟨rfl, hnext c' hc'⟩
  | fork w =>
    obtain rfl : t = .supervisor := hp
    suffices h : SupervisorStep m (advance workers m (.fork w)) from ⟨h.line, h.moves, h.next⟩
    obtain ⟨hcov, hnn, htk, hleft⟩ := hline w
    simp only [advance]
    split
    · rename_i hp
      apply SupervisorStep.set hline
      · refine ⟨?_, ?_, ?_, ?_⟩
        all_goals simp_all [Line.received, Process.received, TakenOk]
      · exact Change.of_supervisor rfl rfl (.inl rfl) (by simp [hp]) (by simp [hp])
      · exact fun _ h => nomatch h
    · exact .refused hline
  | reap w =>
    obtain rfl : t = .supervisor := hp
    suffices h : SupervisorStep m (advance workers m (.reap w)) from ⟨h.line, h.moves, h.next⟩
    simp only [advance]
    split
    · exact .refused hline
    · exact .refused hline
    · rename_i hclosing
      apply SupervisorStep.set hline
      · exact lineOk_reap (hline w) hclosing
      · exact Change.of_reap rfl rfl
      · intro pc h
        cases h
        rfl
  | mark w =>
    obtain rfl : t = .supervisor := hp
    suffices h : SupervisorStep m (advance workers m (.mark w)) from ⟨h.line, h.moves, h.next⟩
    obtain ⟨hcov, hnn, htk, hleft⟩ := hline w
    simp only [advance]
    apply SupervisorStep.set hline
    · exact ⟨hcov, hnn, htk, fun _ _ => rfl⟩
    · exact ⟨Nat.le_refl _, fun _ _ h => h,
        fun _ _ _ _ h hl => (stepOk_congr rfl rfl rfl).mpr (h hl), fun h => absurd rfl h⟩
    · exact fun _ h => nomatch h

/-! ## Over a run -/

/-- **The count covers every hand-off, and every point knows its line, at every instant.** -/
theorem sound_of_execution (e : Execution workers) :
    ∀ k ≤ e.labels.length, Sound (e.state k) := by
  refine Program.invariant_of_roles ?_ ?_ ?_ e
  · refine ⟨fun w => ⟨?_, ?_, ?_, ?_⟩, fun t pc h => nomatch h⟩
    all_goals simp [Line.init, Line.received, Process.received, TakenOk]
  · intro s t op hs hpc hmay
    refine ⟨hs.line, Threads.State.forall_move (fun u p _ hp => hs.point u p hp) fun p hp => ?_⟩
    cases hp
    -- each makes its own calls
    have hwho : op.who = t := by simpa [may] using hmay
    subst hwho
    cases op with
    | worker w life act => exact ⟨rfl, workerOk_first act⟩
    | close w rounds => exact ⟨rfl, trivial⟩
    | fork w => rfl
    | reap w => rfl
  · intro s t pc m' nx hs hpc hadv
    obtain ⟨hline, ⟨v, hmoves⟩, hnext⟩ := @advance_ok workers s.mem pc t hs.line (hs.point t pc hpc)
    have hadv' : advance workers s.mem pc = (m', nx) := hadv
    rw [hadv'] at hline hmoves hnext
    exact ⟨hline, Threads.State.forall_move
      (fun u p hne hp => hmoves.pointOk hne (hs.point u p hp)) hnext⟩

/-! ## Behind a leaver's last look -/

/-- Nothing reads the line's channel: its worker has left, or is gone and no other one has bound
the index. -/
def Unread (l : Line) : Prop :=
  match l.process with
  | .bound | .starting | .running _ false => False
  | _ => True

/-- The thread is about to put a hand-off into the channel of `w`. -/
def Pc.Posts (w : Nat) : Pc → Prop
  | .worker _ _ (.post target _ _) => target = w
  | _ => False

/-- A line that is left and empty, and that nothing reads. -/
structure Emptied (l : Line) : Prop where
  left : l.state = stateLeft
  unread : Unread l
  channel : l.channel = []

/-- The line `w` is so, and nobody is about to put a hand-off into its channel. -/
def StaysEmpty (w : Nat) (s : State) : Prop :=
  Emptied (s.mem w) ∧ ∀ t pc, s.pc t = some pc → ¬ pc.Posts w

/-- **A leaver that awaits no hand-off has an empty channel and no sender**: what it has received
covers the count. -/
theorem emptied_of_awaiting {s : State} (hs : Sound s) {drained : Nat}
    (hp : (s.mem w).process = .running drained true)
    (hpending : ¬ (s.mem w).pending - drained > 0) : StaysEmpty w s := by
  obtain ⟨hcov, -, -, hleft⟩ := hs.line w
  simp only [Line.received, Process.received, hp] at hcov
  refine ⟨⟨hleft drained hp, ?_, ?_⟩, ?_⟩
  · simp [Unread, hp]
  · exact List.eq_nil_of_length_eq_zero (by omega)
  · intro t pc hpc hposts
    have hnone : (s.mem w).announced = [] := List.eq_nil_of_length_eq_zero (by omega)
    have hok := hs.point t pc hpc
    cases pc with
    | worker w' life step =>
      cases step with
      | post target fd room =>
        obtain rfl : target = w := hposts
        have hmem := (hok.2.announced target rfl).2
        rw [hnone] at hmem
        cases hmem
      | _ => exact hposts
    | _ => exact hposts

theorem emptied_set {v : Nat} {f : Line → Line} (hl : Emptied (m w))
    (h : v = w → Emptied (f (m w))) : Emptied (m.set v f w) := by
  rcases eq_or_ne w v with rfl | hne
  · rw [Page.set_self]
    exact h rfl
  · rwa [m.set_of_ne f hne]

theorem Unread.ne_bound {l : Line} (h : Unread l) : l.process ≠ .bound :=
  fun hp => by simp [Unread, hp] at h

theorem Unread.ne_starting {l : Line} (h : Unread l) : l.process ≠ .starting :=
  fun hp => by simp [Unread, hp] at h

theorem Unread.left_of_running {l : Line} (h : Unread l) {drained : Nat} {left : Bool}
    (hp : l.process = .running drained left) : left = true := by
  cases left with
  | true => rfl
  | false => simp [Unread, hp] at h

/-- What a step to points `P`, some of them about to post to `w`, leaves of an emptied line `w`. -/
structure EmptiedStep {P : Type} (w : Nat) (posts : P → Prop) (r : Page × Next P Res) : Prop where
  line : Emptied (r.1 w)
  posts : ∀ p, r.2.point = some p → ¬ posts p

section
variable {P : Type} {posts : P → Prop}

theorem EmptiedStep.same {nx : Next P Res} (hl : Emptied (m w))
    (hposts : ∀ p, nx.point = some p → ¬ posts p) : EmptiedStep w posts (m, nx) :=
  ⟨hl, hposts⟩

theorem EmptiedStep.refused {res : Res} (hl : Emptied (m w)) :
    EmptiedStep w posts (m, .ret res) :=
  ⟨hl, fun _ h => nomatch h⟩

theorem EmptiedStep.set {u : Nat} {f : Line → Line} {nx : Next P Res} (hl : Emptied (m w))
    (h : u = w → Emptied (f (m w))) (hposts : ∀ p, nx.point = some p → ¬ posts p) :
    EmptiedStep w posts (m.set u f, nx) :=
  ⟨emptied_set hl h, hposts⟩

/-- A step under the names that its program gives the points. -/
theorem EmptiedStep.map {P' : Type} {posts' : P' → Prop} {f : P → P'} {r : Page × Next P Res}
    (h : EmptiedStep w posts r) (hf : ∀ p, posts' (f p) → posts p) :
    EmptiedStep w posts' (r.1, r.2.map f) where
  line := h.line
  posts p' hp' := by
    rw [Next.point_map, Option.map_eq_some_iff] at hp'
    obtain ⟨p, hp, rfl⟩ := hp'
    exact fun hposts => h.posts p hp (hf p hposts)

end

/-- A worker's step keeps an emptied line so: a sender that reads its state takes the count back,
and only a `bind` ends it. -/
theorem emptied_workerStep {v : Nat} {step : Step} (hown : StepOk (m v) step)
    (hposts : ¬ (Pc.worker v life step).Posts w) (hl : Emptied (m w))
    (hbound : ((workerStep workers m v life step).1 w).process ≠ .bound) :
    EmptiedStep w (fun step => (Pc.worker v life step).Posts w) (workerStep workers m v life step) := by
  have ⟨hleft, hunread, hch⟩ := hl
  cases step with
  | bind =>
    simp only [workerStep] at hbound ⊢
    split
    · rename_i hp hact
      refine .set hl (fun hvw => ?_) fun _ h => nomatch h
      subst hvw
      simp [hp, hact] at hbound
    · exact .refused hl
  | startState =>
    simp only [workerStep]
    split
    · rename_i hp
      refine .set hl (fun hvw => ?_) fun _ h => by cases h; exact id
      subst hvw
      exact absurd hp hunread.ne_bound
    · exact .refused hl
  | startLoad =>
    have hp : (m v).process = .bound := hown
    simp only [workerStep]
    split
    · exact .same hl fun _ h => by cases h; exact id
    · refine .set hl (fun hvw => ?_) fun _ h => nomatch h
      subst hvw
      exact absurd hp hunread.ne_bound
  | startStore taken =>
    refine .set hl (fun hvw => ?_) fun _ h => by cases h; exact id
    subst hvw
    exact absurd hown.1 hunread.ne_bound
  | startRetire taken =>
    refine .set hl (fun hvw => ?_) fun _ h => nomatch h
    subst hvw
    exact absurd hown.1 hunread.ne_starting
  | passBegin now =>
    simp only [workerStep]
    split
    · rename_i hp
      refine .set hl (fun hvw => ?_) fun _ h => nomatch h
      subst hvw
      cases hunread.left_of_running hp
    · exact .refused hl
    · exact .refused hl
  | receive =>
    simp only [workerStep]
    split
    · exact .refused hl
    · rename_i hp hcons
      refine .set hl (fun hvw => ?_) fun _ h => by cases h; exact id
      subst hvw
      rw [hch] at hcons
      cases hcons
    · exact .refused hl
  | receiveStore fd =>
    simp only [workerStep]
    split
    · exact .set hl (fun _ => ⟨hleft, hunread, hch⟩) fun _ h => nomatch h
    · exact .refused hl
  | passEnd =>
    simp only [workerStep]
    split
    · split
      · exact .set hl (fun _ => ⟨hleft, hunread, hch⟩) fun _ h => by cases h; exact id
      · exact .same hl fun _ h => by cases h; exact id
    · exact .refused hl
  | passEndRetire =>
    simp only [workerStep]
    split
    · rename_i drained left hp
      split
      · exact .set hl (fun _ => ⟨hleft, hunread, hch⟩) fun _ h => by cases h; exact id
      · refine .set hl (fun hvw => ?_) fun _ h => by cases h; exact id
        subst hvw
        obtain rfl := hunread.left_of_running hp
        exact ⟨hleft, trivial, hch⟩
    · exact .refused hl
  | passEndFloor => exact absurd hown id
  | passEndPark =>
    simp only [workerStep]
    split
    · rename_i hp
      refine .set hl (fun hvw => ?_) fun _ h => nomatch h
      subst hvw
      cases hunread.left_of_running hp
    · exact .refused hl
  | leave =>
    simp only [workerStep]
    split
    · exact .set hl (fun _ => ⟨rfl, trivial, hch⟩) fun _ h => nomatch h
    · exact .refused hl
  | awaiting =>
    simp only [workerStep]
    split
    · exact .refused hl
    · exact .refused hl
  | raise target fd room =>
    simp only [workerStep]
    split
    · split
      · exact .set hl (fun _ => ⟨hleft, hunread, hch⟩) fun _ h => by cases h; exact id
      · exact .refused hl
    · exact .refused hl
  | check target fd room =>
    refine .same hl fun step h => ?_
    simp only [Next.point, Option.some.injEq] at h
    subst h
    split
    · exact id
    · -- the sender reads a state other than that of line `w`
      rename_i hstate
      intro htarget
      have htarget : target = w := htarget
      exact hstate (htarget ▸ hleft)
  | post target fd room =>
    have hne : target ≠ w := hposts
    simp only [workerStep]
    split
    · exact .set hl (fun htarget => absurd htarget hne) fun _ h => nomatch h
    · exact .same hl fun _ h => by cases h; exact id
  | takeBack target =>
    exact .set hl (fun _ => ⟨hleft, hunread, hch⟩) fun _ h => nomatch h

/-- The supervisor's drain keeps an emptied line so. -/
theorem emptied_closeStep {v : Nat} {c : Close} (hl : Emptied (m w)) :
    EmptiedStep w (fun _ => False) (closeStep m v c) := by
  have ⟨hleft, hunread, hch⟩ := hl
  cases c with
  | begin rounds =>
    simp only [closeStep]
    split
    · exact .set hl (fun _ => ⟨hleft, trivial, hch⟩) fun _ _ => id
    · exact .refused hl
  | recv rounds =>
    simp only [closeStep]
    split
    · rename_i hp hcons
      refine .set hl (fun hvw => ?_) fun _ _ => id
      subst hvw
      rw [hch] at hcons
      cases hcons
    · exact .same hl fun _ _ => id
  | pending rounds => exact .same hl fun _ _ => id
  | taken rounds pending =>
    simp only [closeStep]
    repeat' split
    all_goals exact .same hl fun _ _ => id
  | took => exact .same hl fun _ _ => id
  | zero took => exact .set hl (fun _ => ⟨hleft, hunread, hch⟩) fun _ _ => id
  | retire took =>
    simp only [closeStep]
    split
    · split
      · split
        · exact .set hl (fun _ => ⟨hleft, hunread, hch⟩) fun _ _ => id
        · exact .set hl (fun _ => ⟨hleft, trivial, hch⟩) fun _ _ => id
      · exact .set hl (fun _ => ⟨hleft, trivial, hch⟩) fun _ _ => id
    · exact .refused hl
  | floor => exact .set hl (fun _ => ⟨hleft, trivial, hch⟩) fun _ _ => id

/-- **An emptied line stays so until a worker binds its index.** -/
theorem emptied_advance {t : Who} {pc : Pc} (hp : PointOk m t pc) (hposts : ¬ pc.Posts w)
    (hl : Emptied (m w)) (hbound : ((advance workers m pc).1 w).process ≠ .bound) :
    EmptiedStep w (Pc.Posts w) (advance workers m pc) := by
  have ⟨hleft, hunread, hch⟩ := hl
  cases pc with
  | worker v life step =>
    simp only [advance] at hbound ⊢
    split
    · rename_i hlife
      rw [if_pos hlife] at hbound
      exact (emptied_workerStep (hp.2.own hlife) hposts hl hbound).map fun _ => id
    · exact .refused hl
  | close v c => exact (emptied_closeStep hl).map fun _ => id
  | fork v =>
    simp only [advance]
    split
    · exact .set hl (fun _ => ⟨hleft, trivial, hch⟩) fun _ h => nomatch h
    · exact .refused hl
  | reap v =>
    simp only [advance]
    split
    · exact .refused hl
    · exact .refused hl
    · refine .set hl (fun _ => ⟨hleft, trivial, hch⟩) fun pc' h => ?_
      cases h
      exact id
  | mark v => exact .set hl (fun _ => ⟨rfl, hunread, hch⟩) fun _ h => nomatch h

/-- One step of a run, from a line that stays empty. -/
theorem staysEmpty_step {s s' : State} {l : Threads.Label Who Op Res} (hs : Sound s)
    (h : (program workers).next s l = some s') (hbound : (s'.mem w).process ≠ .bound)
    (he : StaysEmpty w s) : StaysEmpty w s' := by
  obtain ⟨t, act⟩ := l
  have hstep : ∀ pc mem nx, s.pc t = some pc → advance workers s.mem pc = (mem, nx) →
      s' = s.move t mem nx.point → StaysEmpty w s' := by
    rintro pc mem nx hpc hadv rfl
    have hkeep := @emptied_advance workers s.mem w t pc (hs.point t pc hpc) (he.2 t pc hpc) he.1
      (by rw [hadv]; exact hbound)
    rw [hadv] at hkeep
    exact ⟨hkeep.line, Threads.State.forall_move (fun u p _ hp => he.2 u p hp) hkeep.posts⟩
  cases act with
  | call op =>
    obtain ⟨-, rfl⟩ := Program.next_call h
    refine ⟨he.1, Threads.State.forall_move (fun u p _ hp => he.2 u p hp) fun p hp => ?_⟩
    cases hp
    cases op with
    | worker v life act => cases act <;> exact id
    | _ => exact id
  | go =>
    obtain ⟨pc, pc', mem, hpc, hadv, hs'⟩ := Program.next_go h
    exact hstep pc mem _ hpc hadv hs'
  | ret res =>
    obtain ⟨pc, mem, hpc, hadv, hs'⟩ := Program.next_ret h
    exact hstep pc mem _ hpc hadv hs'

/-- Only `awaiting_handoffs` answers whether it awaits one. -/
theorem workerStep_awaiting {step : Step} {answer : Bool}
    (h : (workerStep workers m w life step).2 = .ret (.awaiting answer)) : step = .awaiting := by
  cases step with
  | awaiting => rfl
  | _ =>
    simp only [workerStep] at h
    repeat' split at h
    all_goals cases h

/-- What `awaiting_handoffs` answers a worker that has left. -/
theorem advance_awaiting {pc : Pc} {m' : Page} {answer : Bool} {drained : Nat}
    (hok : PointOk m (.worker w life) pc)
    (hadv : advance workers m pc = (m', .ret (.awaiting answer)))
    (hp : (m w).process = .running drained true) :
    m' = m ∧ answer = decide ((m w).pending - drained > 0) := by
  cases pc with
  | worker v life' step =>
    cases hok.1
    simp only [advance] at hadv
    split at hadv
    · have hmap := congrArg Prod.snd hadv
      cases hnx : (workerStep workers m w life step).2 with
      | goto pc =>
        rw [hnx] at hmap
        cases hmap
      | ret res =>
        rw [hnx] at hmap
        cases hmap
        obtain rfl := workerStep_awaiting hnx
        simp only [workerStep, hp] at hadv
        cases hadv
        exact ⟨rfl, rfl⟩
    · cases hadv
  | close v c => cases hok.1
  | _ => cases hok

/-- **The last look of a leaver**: it awaits nothing, so its channel is empty and no sender will
put a hand-off into it. -/
theorem staysEmpty_of_awaiting {s s' : State}
    (h : (program workers).next s ⟨.worker w life, .ret (.awaiting false)⟩ = some s')
    (hs : Sound s) {drained : Nat} (hp : (s.mem w).process = .running drained true) :
    StaysEmpty w s' := by
  obtain ⟨pc, mem, hpc, hadv, hs'⟩ := Program.next_ret h
  obtain ⟨rfl, hanswer⟩ := advance_awaiting (hs.point _ _ hpc) hadv hp
  have hpending : ¬ (s.mem w).pending - drained > 0 := by simpa using hanswer
  refine staysEmpty_step hs h ?_ (emptied_of_awaiting hs hp hpending)
  rw [hs', Threads.State.move_mem, hp]
  nofun

/-- **No hand-off is lost**: the count of an index is never below the hand-offs in its channel and
those received and not retired; and when a leaver's drain ends because `awaiting_handoffs` answers
False, its channel is empty and nobody will put a hand-off into it until a worker binds the index
again. -/
theorem handoffs_not_lost (e : Execution workers) :
    (∀ k ≤ e.labels.length, ∀ w, (((e.state k).mem w).channel.length +
      ((e.state k).mem w).received : Int) ≤ ((e.state k).mem w).pending) ∧
    (∀ j w life drained, e.labels[j]? = some ⟨.worker w life, .ret (.awaiting false)⟩ →
      ((e.state j).mem w).process = .running drained true →
      ∀ k, j < k → k ≤ e.labels.length →
        (∀ i, j < i → i ≤ k → ((e.state i).mem w).process ≠ .bound) →
        ((e.state k).mem w).channel = [] ∧
          ∀ t pc, (e.state k).pc t = some pc → ¬ pc.Posts w) := by
  have hsound := sound_of_execution e
  have hstep : ∀ {k l}, e.labels[k]? = some l →
      (program workers).next (e.state k) l = some (e.state (k + 1)) :=
    fun h => (Program.next_of_nextOf (e.steps h)).1
  refine ⟨fun k hk w => ?_, ?_⟩
  · have hcov := ((hsound k hk).line w).covered
    omega
  · intro j w life drained hl hp k hjk hk hbound
    have hj : j < e.labels.length := LabelledSystem.Execution.lt_length hl
    have hfirst := staysEmpty_of_awaiting (hstep hl) (hsound j (by omega)) hp
    have hlater : StaysEmpty w (e.state k) := by
      refine LabelledSystem.Execution.stays (P := StaysEmpty w) (show j + 1 ≤ k from hjk) hk
        hfirst ?_
      intro i l hji hik hli hempty
      exact staysEmpty_step (hsound i (by omega)) (hstep hli) (hbound (i + 1) (by omega) hik) hempty
    exact ⟨hlater.1.channel, hlater.2⟩

/-- A fork of index `w` up to the end of its `start`. -/
def started (w : Nat) : List (Threads.Label Who Op Res) :=
  [⟨.supervisor, .call (.fork w)⟩, ⟨.supervisor, .ret .done⟩,
    ⟨.worker w 0, .call (.worker w 0 .bind)⟩, ⟨.worker w 0, .ret .done⟩,
    ⟨.worker w 0, .call (.worker w 0 .start)⟩, ⟨.worker w 0, .go⟩, ⟨.worker w 0, .ret .done⟩]

/-- Worker 1 announces a hand-off to worker 0, which leaves and waits for it; worker 1 reads the
state, and takes the count back. -/
def leftWhileAnnounced : List (Threads.Label Who Op Res) :=
  started 0 ++ started 1 ++
    [⟨.worker 1 0, .call (.worker 1 0 (.send 0 7 true))⟩, ⟨.worker 1 0, .go⟩,
      ⟨.worker 0 0, .call (.worker 0 0 .leave)⟩, ⟨.worker 0 0, .ret .done⟩,
      ⟨.worker 0 0, .call (.worker 0 0 .awaiting)⟩, ⟨.worker 0 0, .ret (.awaiting true)⟩,
      ⟨.worker 1 0, .go⟩, ⟨.worker 1 0, .ret (.sent false)⟩,
      ⟨.worker 0 0, .call (.worker 0 0 .awaiting)⟩, ⟨.worker 0 0, .ret (.awaiting false)⟩]

theorem leftWhileAnnounced_runs :
    (((program 2).systemOf may (fun _ => Line.init)).run
      ((program 2).systemOf may (fun _ => Line.init)).init leftWhileAnnounced).isSome := by
  decide

/-- There the leaver's channel is empty behind its last look. -/
theorem leftWhileAnnounced_not_lost :
    (((LabelledSystem.Execution.ofRun _ leftWhileAnnounced leftWhileAnnounced_runs).state 24).mem
      0).channel = [] :=
  ((handoffs_not_lost (.ofRun _ leftWhileAnnounced leftWhileAnnounced_runs)).2 23 0 0 0 rfl
    (by decide) 24 (by omega) (by decide) fun i h₁ h₂ => by
      obtain rfl : i = 24 := by omega
      decide).1

end MojoHttp.AcceptShare
