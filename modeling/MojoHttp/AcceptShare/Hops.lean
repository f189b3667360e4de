import MojoHttp.AcceptShare.Handoffs
import MojoHttp.AcceptShare.Pick
import Mathlib.Data.List.Nodup
import Mathlib.Data.List.Perm.Subperm

/-!
# The hops of a passed connection (`accept_share.mojo`)

A worker that has left passes on what its channel delivers. Each hop is to a worker whose state
the sender read again and found not left; where no index is forked twice a worker leaves once, so
a connection never comes back to a worker that has passed it on.

* **`Turn`** — what one step does to the state and the phase of a line.
* **`left_stays`** — in a run that starts no worker again, an index that has left stays so.
* **`reread_of_post`** — a sender about to post has read the state of a target that had not left.
* **`Journey.length_le`** — leaving workers pass a connection on fewer times than there are
  workers.
-/

namespace MojoHttp.AcceptShare

open Threads (Next Program ReturnsAt)

/-! ## The phase of an index -/

/-- What the process of an index may still do: nothing, `bind`, the calls of a worker that has not
left, or those of one that has. -/
inductive Phase where
  | idle
  | forked
  | armed
  | left
  deriving DecidableEq

def Line.phase (l : Line) : Phase :=
  match l.process with
  | .none | .closing _ => .idle
  | .forked => .forked
  | .bound | .starting | .running _ false => .armed
  | .running _ true => .left

/-- **What a step from `pc` does to the line of index `w`.** -/
inductive Turn (workers w : Nat) (pc : Pc) (l l' : Line) : Prop
  | stay (hstate : l'.state = l.state) (hphase : l'.phase = l.phase)
  | store (hphase : l.phase = .armed) (hphase' : l'.phase = .armed) (hstate : l'.state ≠ stateLeft)
  | fork (hpc : pc = .fork w) (hphase : l'.phase = .forked) (hstate : l'.state = l.state)
  | bind (hphase : l.phase = .forked) (hphase' : l'.phase = .armed) (hw : w < workers)
      (hstate : l'.state ≠ stateLeft)
  | leave (hphase : l.phase = .armed ∨ l.phase = .left) (hphase' : l'.phase = .left)
      (hstate : l'.state = stateLeft)
  | reap (hphase' : l'.phase = .idle) (hstate : l'.state = l.state)
  | mark (hpc : pc = .mark w) (hphase : l'.phase = l.phase) (hstate : l'.state = stateLeft)

variable {workers : Nat} {m : Page} {w life : Nat}

/-- What a step from `pc` does to it, of the page and where the step takes its thread. -/
def Turns (workers w : Nat) (pc : Pc) (m : Page) {P : Type} (r : Page × Next P Res) : Prop :=
  Turn workers w pc (m w) (r.1 w)

theorem Turns.set {pc : Pc} {u : Nat} {f : Line → Line} {P : Type} {nx : Next P Res}
    (h : u = w → Turn workers w pc (m w) (f (m w))) : Turns workers w pc m (m.set u f, nx) := by
  show Turn workers w pc (m w) (m.set u f w)
  rcases eq_or_ne w u with rfl | hne
  · rw [Page.set_self]
    exact h rfl
  · rw [m.set_of_ne f hne]
    exact .stay rfl rfl

theorem Turns.same {pc : Pc} {P : Type} {nx : Next P Res} : Turns workers w pc m (m, nx) :=
  .stay rfl rfl

theorem notStarted_ne_left : stateNotStarted ≠ stateLeft := by decide

theorem parked_ne_left : stateParked ≠ stateLeft := by decide

/-- A process that only counts what it has received. -/
theorem phase_running {l l' : Line} {drained drained' : Nat} {left : Bool}
    (h : l.process = .running drained left) (h' : l'.process = .running drained' left) :
    l'.phase = l.phase := by
  cases left
  all_goals simp only [Line.phase, h, h']

/-- A worker's step: it binds, stores a state that is not that of a leaver, leaves, or does
neither. -/
theorem workerStep_turn {pc : Pc} {v : Nat} {step : Step} (hown : StepOk (m v) step) :
    Turns workers w pc m (workerStep workers m v life step) := by
  cases step with
  | bind =>
    simp only [workerStep]
    split
    · rename_i hp hactive
      refine .set fun hvw => ?_
      subst hvw
      have hv : v < workers := by
        simp only [active, Bool.and_eq_true, decide_eq_true_eq] at hactive
        exact hactive.1
      exact .bind (by simp only [Line.phase, hp]) rfl hv notStarted_ne_left
    · exact .same
  | startState =>
    simp only [workerStep]
    split
    · rename_i hp
      refine .set fun hvw => ?_
      subst hvw
      exact .store (by simp only [Line.phase, hp]) (by simp only [Line.phase, hp]) parked_ne_left
    · exact .same
  | startLoad =>
    have hp : (m v).process = .bound := hown
    simp only [workerStep]
    split
    · exact .same
    · refine .set fun hvw => ?_
      subst hvw
      exact .stay rfl (by simp only [Line.phase, hp])
  | startStore taken =>
    refine .set fun hvw => ?_
    subst hvw
    exact .stay rfl (by simp only [Line.phase, hown.1])
  | startRetire taken =>
    refine .set fun hvw => ?_
    subst hvw
    exact .stay rfl (by simp only [Line.phase, hown.1])
  | passBegin now =>
    simp only [workerStep]
    split
    · rename_i hp
      refine .set fun hvw => ?_
      subst hvw
      refine .store (by simp only [Line.phase, hp]) (by simp only [Line.phase, hp]) ?_
      show (if now > 0 then now else 1) ≠ stateLeft
      unfold stateLeft
      split <;> omega
    · exact .same
    · exact .same
  | receive =>
    simp only [workerStep]
    split
    · exact .same
    · rename_i hp _
      refine .set fun hvw => ?_
      subst hvw
      exact .stay rfl (phase_running hp rfl)
    · exact .same
  | receiveStore fd =>
    simp only [workerStep]
    split
    · exact .set fun _ => .stay rfl rfl
    · exact .same
  | passEnd =>
    simp only [workerStep]
    split
    · split
      · exact .set fun _ => .stay rfl rfl
      · exact .same
    · exact .same
  | passEndRetire =>
    simp only [workerStep]
    split
    · rename_i hp
      split
      · exact .set fun _ => .stay rfl rfl
      · refine .set fun hvw => ?_
        subst hvw
        exact .stay rfl (phase_running hp rfl)
    · exact .same
  | passEndFloor => exact absurd hown id
  | passEndPark =>
    simp only [workerStep]
    split
    · rename_i hp
      refine .set fun hvw => ?_
      subst hvw
      exact .store (by simp only [Line.phase, hp]) (by simp only [Line.phase, hp]) parked_ne_left
    · exact .same
  | leave =>
    simp only [workerStep]
    split
    · rename_i drained left hp
      refine .set fun hvw => ?_
      subst hvw
      refine .leave ?_ rfl rfl
      cases left
      · exact .inl (by simp only [Line.phase, hp])
      · exact .inr (by simp only [Line.phase, hp])
    · exact .same
  | awaiting =>
    simp only [workerStep]
    split
    all_goals exact .same
  | raise target fd room =>
    simp only [workerStep]
    split
    · split
      · exact .set fun _ => .stay rfl rfl
      · exact .same
    · exact .same
  | check target fd room => exact .same
  | post target fd room =>
    simp only [workerStep]
    split
    · exact .set fun _ => .stay rfl rfl
    · exact .same
  | takeBack target => exact .set fun _ => .stay rfl rfl

/-- The supervisor's drain neither arms an index nor says that it has left. -/
theorem closeStep_turn {pc : Pc} {v : Nat} {c : Close} (hok : CloseOk (m v) c) :
    Turns workers w pc m (closeStep m v c) := by
  have hidle : ∀ {l : Line} {r : Nat}, l.process = .closing r → l.phase = .idle :=
    fun h => by simp only [Line.phase, h]
  cases c with
  | begin rounds =>
    simp only [closeStep]
    split
    · rename_i hp
      refine .set fun hvw => ?_
      subst hvw
      exact .stay rfl (by simp only [Line.phase, hp])
    · exact .same
  | recv rounds =>
    simp only [closeStep]
    split
    · rename_i hp _
      refine .set fun hvw => ?_
      subst hvw
      exact .stay rfl (by simp only [Line.phase, hp])
    · exact .same
  | pending rounds => exact .same
  | taken rounds pending =>
    simp only [closeStep]
    repeat' split
    all_goals exact .same
  | took => exact .same
  | zero took => exact .set fun _ => .stay rfl rfl
  | retire took =>
    simp only [closeStep]
    split
    · rename_i hp
      split
      · split
        · exact .set fun _ => .stay rfl rfl
        · exact .set fun hvw => .reap rfl rfl
      · exact .set fun hvw => .reap rfl rfl
    · exact .same
  | floor => exact absurd hok id

theorem advance_turn {t : Who} {pc : Pc} (hp : PointOk m t pc) :
    Turns workers w pc m (advance workers m pc) := by
  cases pc with
  | worker v life step =>
    simp only [advance]
    split
    · rename_i hlife
      exact workerStep_turn (hp.2.own hlife)
    · exact .same
  | close v c => exact closeStep_turn hp.2
  | fork v =>
    simp only [advance]
    split
    · refine .set fun hvw => ?_
      subst hvw
      exact .fork rfl rfl rfl
    · exact .same
  | reap v =>
    simp only [advance]
    split
    · exact .same
    · exact .same
    · exact .set fun _ => .reap rfl rfl
  | mark v =>
    refine .set fun hvw => ?_
    subst hvw
    exact .mark rfl rfl rfl

/-! ## A run that starts no worker again -/

/-- Each index is forked once at most. -/
def StartedOnce (e : Execution workers) : Prop :=
  ∀ (w : Nat) (i j : ℕ), e.labels[i]? = some ⟨.supervisor, .call (.fork w)⟩ →
    e.labels[j]? = some ⟨.supervisor, .call (.fork w)⟩ → i = j

/-- The supervisor is about to fork index `w`, or to mark it left. -/
def Pc.Marks (w : Nat) (pc : Pc) : Prop := pc = .fork w ∨ pc = .mark w

theorem marks_supervisor {t : Who} {pc : Pc} (hp : PointOk m t pc) (h : pc.Marks w) :
    t = .supervisor := by
  rcases h with rfl | rfl
  · exact hp
  · exact hp

/-- An index that no fork was called for. -/
structure Unstarted (w : Nat) (s : State) : Prop where
  phase : (s.mem w).phase = .idle
  state : (s.mem w).state ≠ stateLeft
  point : ∀ t pc, s.pc t = some pc → ¬ pc.Marks w

/-- An index of a run that forks it once: what has left is idle or a leaver; the supervisor forks
an idle index that has not left, and marks an idle one. -/
structure Once (w : Nat) (s : State) : Prop where
  left : (s.mem w).state = stateLeft → (s.mem w).phase = .idle ∨ (s.mem w).phase = .left
  point : ∀ t pc, s.pc t = some pc → pc.Marks w →
    (s.mem w).phase = .idle ∧ (pc = .fork w → (s.mem w).state ≠ stateLeft)

theorem Unstarted.once {s : State} (h : Unstarted w s) : Once w s where
  left hleft := absurd hleft h.state
  point t pc hpc hmarks := absurd hmarks (h.point t pc hpc)

/-- A step takes the supervisor to the mark of an index only behind the reaping of its process. -/
theorem advance_marks {pc pc' : Pc} (h : (advance workers m pc).2.point = some pc')
    (hmarks : pc'.Marks w) :
    pc' = .mark w ∧ (m w).process ≠ .none ∧ (∀ r, (m w).process ≠ .closing r) ∧
      ((advance workers m pc).1 w).phase = .idle := by
  cases pc with
  | worker v life step =>
    simp only [advance] at h
    split at h
    · rw [Next.point_map, Option.map_eq_some_iff] at h
      obtain ⟨step', -, rfl⟩ := h
      rcases hmarks with h | h
      all_goals cases h
    · cases h
  | close v c =>
    simp only [advance, Next.point_map, Option.map_eq_some_iff] at h
    obtain ⟨c', -, rfl⟩ := h
    rcases hmarks with h | h
    all_goals cases h
  | fork v =>
    simp only [advance] at h
    split at h
    all_goals cases h
  | reap v =>
    simp only [advance] at h ⊢
    split at h
    · cases h
    · cases h
    · rename_i hnone hclosing
      cases h
      rcases hmarks with h | h
      · cases h
      · cases h
        refine ⟨rfl, hnone, hclosing, ?_⟩
        show (m.set w _ w).phase = .idle
        rw [Page.set_self]
        rfl
  | mark v => cases h

theorem phase_idle {l : Line} :
    l.phase = .idle ↔ l.process = .none ∨ ∃ r, l.process = .closing r := by
  unfold Line.phase
  split
  all_goals simp_all

theorem unstarted_step {s : State} {t : Who} {pc : Pc} {m' : Page} {nx : Next Pc Res}
    (hs : Sound s) (hpc : s.pc t = some pc) (hadv : advance workers s.mem pc = (m', nx))
    (h : Unstarted w s) : Unstarted w (s.move t m' nx.point) := by
  have hturn := @advance_turn workers s.mem w t pc (hs.point t pc hpc)
  have hmarks := @advance_marks workers s.mem w pc
  simp only [Turns, hadv] at hturn hmarks
  have hline : (m' w).phase = .idle ∧ (m' w).state ≠ stateLeft := by
    have hphase := h.phase
    have hpoint := h.point t pc hpc
    cases hturn with
    | stay hstate hsame => exact ⟨hsame.trans hphase, hstate ▸ h.state⟩
    | store harmed => cases hphase.symm.trans harmed
    | fork hfork => exact absurd (.inl hfork) hpoint
    | bind hforked => cases hphase.symm.trans hforked
    | leave harmed =>
      rcases harmed with harmed | hleft
      · cases hphase.symm.trans harmed
      · cases hphase.symm.trans hleft
    | reap hidle hstate => exact ⟨hidle, hstate ▸ h.state⟩
    | mark hmark => exact absurd (.inr hmark) hpoint
  refine ⟨hline.1, hline.2, Threads.State.forall_move (fun u p _ hp => h.point u p hp) ?_⟩
  intro p hp hpm
  obtain ⟨-, hnone, hclosing, -⟩ := hmarks hp hpm
  rcases phase_idle.mp h.phase with h0 | ⟨r, hr⟩
  · exact hnone h0
  · exact hclosing r hr

theorem once_step {s : State} {t : Who} {pc : Pc} {m' : Page} {nx : Next Pc Res}
    (hs : Sound s) (hpc : s.pc t = some pc) (hadv : advance workers s.mem pc = (m', nx))
    (h : Once w s) : Once w (s.move t m' nx.point) := by
  have hturn := @advance_turn workers s.mem w t pc (hs.point t pc hpc)
  have hmarks := @advance_marks workers s.mem w pc
  simp only [Turns, hadv] at hturn hmarks
  -- another thread that is about to fork or mark is not the supervisor
  have hother : ∀ u p, u ≠ t → s.pc u = some p → p.Marks w → ¬ pc.Marks w := by
    intro u p hne hp hpm hpcm
    refine hne ?_
    rw [marks_supervisor (hs.point u p hp) hpm, marks_supervisor (hs.point t pc hpc) hpcm]
  have hidle : ∀ u p, u ≠ t → s.pc u = some p → p.Marks w → (s.mem w).phase = .idle →
      (m' w).phase = .idle ∧ (m' w).state = (s.mem w).state := by
    intro u p hne hp hpm hphase
    have hpoint := hother u p hne hp hpm
    cases hturn with
    | stay hstate hsame => exact ⟨hsame.trans hphase, hstate⟩
    | store harmed => cases hphase.symm.trans harmed
    | fork hfork => exact absurd (.inl hfork) hpoint
    | bind hforked => cases hphase.symm.trans hforked
    | leave harmed =>
      rcases harmed with harmed | hleft
      · cases hphase.symm.trans harmed
      · cases hphase.symm.trans hleft
    | reap hidle hstate => exact ⟨hidle, hstate⟩
    | mark hmark => exact absurd (.inr hmark) hpoint
  refine ⟨fun hleft => ?_, Threads.State.forall_move (fun u p hne hp hpm => ?_) fun p hp hpm => ?_⟩
  · have hleft : (m' w).state = stateLeft := hleft
    show (m' w).phase = .idle ∨ (m' w).phase = .left
    cases hturn with
    | stay hstate hsame =>
      rw [hsame]
      exact h.left (hstate ▸ hleft)
    | store _ _ hne => exact absurd hleft hne
    | fork hfork _ hstate =>
      exact absurd (hstate ▸ hleft) ((h.point t pc hpc (.inl hfork)).2 hfork)
    | bind _ _ _ hne => exact absurd hleft hne
    | leave _ hphase => exact .inr hphase
    | reap hphase => exact .inl hphase
    | mark hmark hphase => exact .inl (hphase.trans (h.point t pc hpc (.inr hmark)).1)
  · obtain ⟨hphase, hstate⟩ := h.point u p hp hpm
    obtain ⟨hphase', hsame⟩ := hidle u p hne hp hpm hphase
    refine ⟨hphase', fun hfork => ?_⟩
    show (m' w).state ≠ stateLeft
    rw [hsame]
    exact hstate hfork
  · obtain ⟨rfl, -, -, hphase⟩ := hmarks hp hpm
    exact ⟨hphase, fun hfork => nomatch hfork⟩

/-- A call but a fork of the index starts at another point. -/
theorem start_marks {op : Op} (h : (Pc.start op).Marks w) : op = .fork w := by
  cases op with
  | fork v =>
    rcases h with h | h
    · cases h
      rfl
    · cases h
  | _ =>
    rcases h with h | h
    all_goals cases h

theorem who_of_may {t : Who} {op : Op} (h : may t op = true) : op.who = t := by
  simpa [may] using h

theorem unstarted_of_uncalled (e : Execution workers) {k : ℕ} (hk : k ≤ e.labels.length)
    (h : ∀ i < k, e.labels[i]? ≠ some ⟨.supervisor, .call (.fork w)⟩) :
    Unstarted w (e.state k) := by
  refine LabelledSystem.Execution.stays (P := Unstarted w) (Nat.zero_le k) hk ?_ ?_
  · rw [e.start]
    exact ⟨rfl, notStarted_ne_left, fun t pc h => nomatch h⟩
  · intro i l _ hik hl hu
    obtain ⟨t, act⟩ := l
    rcases Program.step_of_roles hl with ⟨op, rfl, -, hmay, hs⟩ | ⟨pc, m', nx, hpc, hadv, hs, -⟩
    · rw [hs]
      refine ⟨hu.phase, hu.state, Threads.State.forall_move (fun u p _ hp => hu.point u p hp) ?_⟩
      rintro p hp hpm
      cases hp
      obtain rfl := start_marks hpm
      obtain rfl := who_of_may hmay
      exact h i hik hl
    · rw [hs]
      exact unstarted_step (sound_of_execution e i (by omega)) hpc hadv hu

theorem once_of_execution {e : Execution workers} (h : StartedOnce e) {k : ℕ}
    (hk : k ≤ e.labels.length) : Once w (e.state k) := by
  refine LabelledSystem.Execution.stays (P := Once w) (Nat.zero_le k) hk ?_ ?_
  · exact (unstarted_of_uncalled e (Nat.zero_le _) fun i hi => absurd hi (Nat.not_lt_zero i)).once
  · intro i l _ hik hl ho
    obtain ⟨t, act⟩ := l
    rcases Program.step_of_roles hl with ⟨op, rfl, -, hmay, hs⟩ | ⟨pc, m', nx, hpc, hadv, hs, -⟩
    · rw [hs]
      refine ⟨ho.left, Threads.State.forall_move (fun u p _ hp => ho.point u p hp) ?_⟩
      rintro p hp hpm
      cases hp
      obtain rfl := start_marks hpm
      obtain rfl := who_of_may hmay
      have hu : Unstarted w (e.state i) := unstarted_of_uncalled e (by omega) fun j hj hlj => by
        have := h w j i hlj hl
        omega
      exact ⟨hu.phase, fun _ => hu.state⟩
    · rw [hs]
      exact once_step (sound_of_execution e i (by omega)) hpc hadv ho

/-- **An index that has left stays so.** -/
theorem left_stays {e : Execution workers} (h : StartedOnce e) {i k : ℕ} (hik : i ≤ k)
    (hk : k ≤ e.labels.length) (hi : ((e.state i).mem w).state = stateLeft) :
    ((e.state k).mem w).state = stateLeft := by
  refine LabelledSystem.Execution.stays (P := fun s : State => (s.mem w).state = stateLeft)
    hik hk hi ?_
  intro j l _ hjk hl hleft
  have ho : Once w (e.state j) := once_of_execution h (by omega)
  obtain ⟨t, act⟩ := l
  rcases Program.step_of_roles hl with ⟨op, -, -, -, hs⟩ | ⟨pc, m', nx, hpc, hadv, hs, -⟩
  · rw [hs]
    exact hleft
  · have hturn := @advance_turn workers (e.state j).mem w t pc
      ((sound_of_execution e j (by omega)).point t pc hpc)
    have hadv' : advance workers (e.state j).mem pc = (m', nx) := hadv
    simp only [Turns, hadv'] at hturn
    rw [hs]
    show (m' w).state = stateLeft
    have hphase := ho.left hleft
    cases hturn with
    | stay hstate => exact hstate.trans hleft
    | store harmed =>
      rw [harmed] at hphase
      rcases hphase with h | h
      all_goals cases h
    | fork hfork => exact absurd hleft ((ho.point t pc hpc (.inl hfork)).2 hfork)
    | bind hforked =>
      rw [hforked] at hphase
      rcases hphase with h | h
      all_goals cases h
    | leave _ _ hstate => exact hstate
    | reap _ hstate => exact hstate.trans hleft
    | mark _ _ hstate => exact hstate

/-! ## The sender's second look -/

/-- A sender comes to its post only from its second look at the target's state. -/
theorem advance_post {pc : Pc} {target : Nat} {fd : Int} {room : Bool}
    (h : (advance workers m pc).2.point = some (.worker w life (.post target fd room))) :
    pc = .worker w life (.check target fd room) ∧ (m target).state ≠ stateLeft := by
  cases pc with
  | worker v life' step =>
    simp only [advance] at h
    split at h
    · rw [Next.point_map, Option.map_eq_some_iff] at h
      obtain ⟨step', hstep', heq⟩ := h
      cases heq
      cases step with
      | check target' fd' room' =>
        simp only [workerStep, Next.point, Option.some.injEq] at hstep'
        split at hstep'
        · cases hstep'
        · rename_i hstate
          cases hstep'
          exact ⟨rfl, hstate⟩
      | _ =>
        simp only [workerStep] at hstep'
        repeat' split at hstep'
        all_goals cases hstep'
    · cases h
  | close v c =>
    simp only [advance, Next.point_map, Option.map_eq_some_iff] at h
    obtain ⟨c', -, heq⟩ := h
    cases heq
  | _ =>
    simp only [advance] at h
    repeat' split at h
    all_goals cases h

/-- No call starts at a post. -/
theorem start_ne_post (op : Op) {target : Nat} {fd : Int} {room : Bool} :
    Pc.start op ≠ .worker w life (.post target fd room) := by
  intro h
  cases op with
  | worker v life' act =>
    cases act
    all_goals cases h
  | _ => cases h

/-- **A sender about to post has read its target's state again**, and the target had not left; it
has stood at its post since. -/
theorem reread_of_post (e : Execution workers) {j : ℕ} (hj : j ≤ e.labels.length) {t : Who}
    {target : Nat} {fd : Int} {room : Bool}
    (hpc : (e.state j).pc t = some (.worker w life (.post target fd room))) :
    ∃ c < j, (e.state c).pc t = some (.worker w life (.check target fd room)) ∧
      ((e.state c).mem target).state ≠ stateLeft ∧
      ∀ i, c < i → i ≤ j → (e.state i).pc t = some (.worker w life (.post target fd room)) := by
  obtain ⟨c, -, hcj, hnot, hsince⟩ := LabelledSystem.Execution.last_entry
    (P := fun s : State => s.pc t = some (.worker w life (.post target fd room))) (Nat.zero_le j)
    (by rw [e.start]; exact fun h => nomatch h) hpc
  obtain ⟨⟨u, act⟩, hl⟩ := e.exists_label (show c < e.labels.length by omega)
  have hafter := hsince (c + 1) (by omega) (by omega)
  rcases eq_or_ne t u with rfl | hne
  · rcases Program.step_of_roles hl with ⟨op, -, -, -, hs⟩ | ⟨pc, m', nx, hpc, hadv, hs, -⟩
    · rw [hs, Threads.State.move_pc_self] at hafter
      exact absurd (Option.some.inj hafter) (start_ne_post op)
    · rw [hs, Threads.State.move_pc_self] at hafter
      have hadv' : advance workers (e.state c).mem pc = (m', nx) := hadv
      have hpoint : (advance workers (e.state c).mem pc).2.point =
          some (.worker w life (.post target fd room)) := by
        rw [hadv']
        exact hafter
      obtain ⟨rfl, hstate⟩ := advance_post hpoint
      exact ⟨c, hcj, hpc, hstate, hsince⟩
  · rw [Program.next_pc_of_ne (Program.next_of_nextOf (e.steps hl)).1 hne] at hafter
    exact absurd hafter hnot

/-! ## Hops -/

/-- A worker that runs is one of the workers. -/
theorem lt_of_running (e : Execution workers) {k : ℕ} (hk : k ≤ e.labels.length)
    (hphase : ((e.state k).mem w).phase = .armed ∨ ((e.state k).mem w).phase = .left) :
    w < workers := by
  have hrun := Program.invariant_of_run
    (I := fun s : State => (s.mem w).phase = .armed ∨ (s.mem w).phase = .left → w < workers) e
    (fun h => by
      rcases h with h | h
      all_goals cases h)
    (fun s t op hI _ _ => hI) ?_ k hk
  · exact hrun hphase
  · intro j t act pc m' nx hl hI hpc hadv hrun
    have hj : j < e.labels.length := LabelledSystem.Execution.lt_length hl
    have hturn := @advance_turn workers (e.state j).mem w t pc
      ((sound_of_execution e j (by omega)).point t pc hpc)
    have hadv' : advance workers (e.state j).mem pc = (m', nx) := hadv
    simp only [Turns, hadv'] at hturn
    have hrun : (m' w).phase = .armed ∨ (m' w).phase = .left := hrun
    cases hturn with
    | stay _ hsame => exact hI (hsame ▸ hrun)
    | store harmed => exact hI (.inl harmed)
    | fork _ hforked =>
      rw [hforked] at hrun
      rcases hrun with h | h
      all_goals cases h
    | bind _ _ hw => exact hw
    | leave hphase => exact hI hphase
    | reap hidle =>
      rw [hidle] at hrun
      rcases hrun with h | h
      all_goals cases h
    | mark _ hsame => exact hI (hsame ▸ hrun)

/-- One hop: a call of `send` by a worker, and where it starts and returns in the run. -/
structure Hop where
  worker : Nat
  life : Nat
  target : Nat
  call : ℕ
  done : ℕ

/-- The worker of the hop had left when it called `send`, which queued the connection. -/
structure Hop.Forwards (e : Execution workers) (fd : Int) (h : Hop) : Prop where
  calls : ∃ room, e.labels[h.call]? =
    some ⟨.worker h.worker h.life, .call (.worker h.worker h.life (.send h.target fd room))⟩
  left : ∃ drained, ((e.state h.call).mem h.worker).process = .running drained true
  sent : ReturnsAt (Program.free e) (.worker h.worker h.life) h.call h.done (.sent true)

/-- The worker of the hop took the connection off its channel between two instants. -/
def Hop.Receives (e : Execution workers) (fd : Int) (h : Hop) (i : ℕ) : Prop :=
  ∃ r, i < r ∧ r < h.call ∧
    e.labels[r]? = some ⟨.worker h.worker h.life, .ret (.received (some fd))⟩

/-- The hops of one connection, from one worker to the next: each worker that has left takes it
off its channel and passes it on. -/
inductive Journey (e : Execution workers) (fd : Int) : List Hop → Prop
  | nil : Journey e fd []
  | last {h : Hop} (hforwards : h.Forwards e fd) : Journey e fd [h]
  | cons {h next : Hop} {hops : List Hop} (hforwards : h.Forwards e fd)
      (hnext : next.worker = h.target) (hreceives : next.Receives e fd h.done)
      (hrest : Journey e fd (next :: hops)) : Journey e fd (h :: next :: hops)

/-- A point of a call that sends to `target`: it names one of the workers once the count is
raised. -/
def SendsTo (workers w life target : Nat) (pc : Pc) : Prop :=
  (∃ fd room, pc = .worker w life (.raise target fd room)) ∨
    ∃ step, pc = .worker w life step ∧ step.target = some target ∧ target < workers

theorem sendsTo_advance {target : Nat} {pc pc' : Pc} {m' : Page}
    (h : SendsTo workers w life target pc) (hadv : advance workers m pc = (m', .goto pc')) :
    SendsTo workers w life target pc' := by
  have hpoint : (advance workers m pc).2.point = some pc' := by rw [hadv]; rfl
  rcases h with ⟨fd, room, rfl⟩ | ⟨step, rfl, htarget, hlt⟩
  · simp only [advance] at hpoint
    split at hpoint
    · rw [Next.point_map, Option.map_eq_some_iff] at hpoint
      obtain ⟨step', hstep', rfl⟩ := hpoint
      simp only [workerStep] at hstep'
      split at hstep'
      · split at hstep'
        · rename_i hand
          cases hstep'
          exact .inr ⟨_, rfl, rfl, hand.1⟩
        · cases hstep'
      · cases hstep'
    · cases hpoint
  · simp only [advance] at hpoint
    split at hpoint
    · rw [Next.point_map, Option.map_eq_some_iff] at hpoint
      obtain ⟨step', hstep', rfl⟩ := hpoint
      refine .inr ⟨step', rfl, ?_, hlt⟩
      cases step with
      | check target' fd room =>
        obtain rfl := Option.some.inj htarget
        simp only [workerStep, Next.point, Option.some.injEq] at hstep'
        split at hstep'
        all_goals
          subst hstep'
          rfl
      | post target' fd room =>
        obtain rfl := Option.some.inj htarget
        simp only [workerStep] at hstep'
        split at hstep'
        · cases hstep'
        · cases hstep'
          rfl
      | takeBack target' => cases hstep'
      | _ => cases htarget
    · cases hpoint

/-- Only a post answers that the connection is queued. -/
theorem advance_sent {pc : Pc} {m' : Page} (h : advance workers m pc = (m', .ret (.sent true))) :
    ∃ w life target fd, pc = .worker w life (.post target fd true) := by
  cases pc with
  | worker v life' step =>
    simp only [advance] at h
    split at h
    · have hmap := congrArg Prod.snd h
      cases hnx : (workerStep workers m v life' step).2 with
      | goto pc =>
        rw [hnx] at hmap
        cases hmap
      | ret res =>
        rw [hnx] at hmap
        cases hmap
        cases step with
        | post target fd room =>
          simp only [workerStep] at hnx
          split at hnx
          · rename_i hroom
            subst hroom
            exact ⟨v, life', target, fd, rfl⟩
          · cases hnx
        | _ =>
          simp only [workerStep] at hnx
          repeat' split at hnx
          all_goals cases hnx
    · cases h
  | close v c =>
    have hmap := congrArg Prod.snd h
    simp only [advance] at hmap
    cases hnx : (closeStep m v c).2 with
    | goto c' =>
      rw [hnx] at hmap
      cases hmap
    | ret res =>
      rw [hnx] at hmap
      cases hmap
      cases c
      all_goals
        simp only [closeStep] at hnx
        repeat' split at hnx
      all_goals cases hnx
  | _ =>
    simp only [advance] at h
    repeat' split at h
    all_goals cases h

namespace Hop.Forwards

variable {e : Execution workers} {fd : Int} {h : Hop}

theorem done_le (hf : h.Forwards e fd) : h.done ≤ e.labels.length :=
  Nat.le_of_lt hf.sent.lt_length

/-- The worker of a hop has left, as its state says. -/
theorem state_left (hf : h.Forwards e fd) : ((e.state h.call).mem h.worker).state = stateLeft := by
  obtain ⟨drained, hp⟩ := hf.left
  have hlt := hf.sent.lt
  have hle := hf.done_le
  exact ((sound_of_execution e h.call (by omega)).line h.worker).left drained hp

/-- **The target of a hop had not left when the sender read its state again**, inside the call. -/
theorem reread (hf : h.Forwards e fd) :
    h.target < workers ∧ ∃ c, h.call < c ∧ c < h.done ∧
      ((e.state c).mem h.target).state ≠ stateLeft := by
  obtain ⟨room, hcalls⟩ := hf.calls
  obtain ⟨pc, hpc, hadv⟩ := hf.sent.step
  obtain ⟨w, life, target, fd', rfl⟩ := advance_sent hadv
  obtain ⟨pc', hpc', hsends⟩ := Threads.pc_of_call (e := Program.free e)
    (Q := SendsTo workers h.worker h.life h.target) hcalls (.inl ⟨fd, room, rfl⟩)
    (fun _ _ _ _ => sendsTo_advance) hf.sent.inner hf.sent.lt (Nat.le_refl _) hf.done_le
  obtain rfl := Option.some.inj (hpc.symm.trans hpc')
  rcases hsends with ⟨_, _, heq⟩ | ⟨step, heq, htarget, hlt⟩
  · cases heq
  · cases heq
    obtain rfl := Option.some.inj htarget
    obtain ⟨c, hc, -, hstate, hsince⟩ := reread_of_post e hf.done_le hpc
    refine ⟨hlt, c, ?_, hc, hstate⟩
    -- behind its start the call has not come to its post
    by_contra hcall
    have hpost := hsince (h.call + 1) (by omega) hf.sent.lt
    have hstart : (e.state (h.call + 1)).pc (.worker h.worker h.life) = _ :=
      Threads.pc_of_start (e := Program.free e) hcalls
    rw [hpost] at hstart
    cases hstart

/-- A worker that had left by the start of a hop is not its target. -/
theorem ne_target (hf : h.Forwards e fd) (hs : StartedOnce e) {i : ℕ} (hi : i ≤ h.call)
    (hleft : ((e.state i).mem w).state = stateLeft) : w ≠ h.target := by
  rintro rfl
  obtain ⟨-, c, hcall, hdone, hstate⟩ := hf.reread
  have hle := hf.done_le
  exact hstate (left_stays hs (by omega) (by omega) hleft)

theorem worker_lt (hf : h.Forwards e fd) : h.worker < workers := by
  obtain ⟨drained, hp⟩ := hf.left
  have hlt := hf.sent.lt
  have hle := hf.done_le
  exact lt_of_running e (show h.call ≤ e.labels.length by omega)
    (.inr (by simp only [Line.phase, hp]))

end Hop.Forwards

namespace Journey

variable {e : Execution workers} {fd : Int} {hops : List Hop}

/-- A worker that had left by the start of a journey is no target of it. -/
theorem not_mem_targets (hj : Journey e fd hops) (hs : StartedOnce e) {i : ℕ}
    (hi : ∀ h ∈ hops.head?, i ≤ h.call) (hleft : ((e.state i).mem w).state = stateLeft) :
    w ∉ hops.map Hop.target := by
  induction hj with
  | nil => exact List.not_mem_nil
  | last hforwards =>
    rw [List.map_singleton, List.mem_singleton]
    exact hforwards.ne_target hs (hi _ rfl) hleft
  | @cons h next hops hforwards hnext hreceives hrest ih =>
    have hcall : i ≤ h.call := hi h rfl
    rw [List.map_cons, List.mem_cons, not_or]
    refine ⟨hforwards.ne_target hs hcall hleft, ih fun h' hh' => ?_⟩
    cases hh'
    obtain ⟨r, hdone, hr, -⟩ := hreceives
    have hlt := hforwards.sent.lt
    omega

/-- Every worker the connection was at: the first that passed it on, and the targets. -/
def route : List Hop → List Nat
  | [] => []
  | h :: hops => h.worker :: (h :: hops).map Hop.target

/-- **A connection never comes back to a worker that has passed it on.** -/
theorem nodup_route (hj : Journey e fd hops) (hs : StartedOnce e) :
    (route hops).Nodup ∧ ∀ w ∈ route hops, w < workers := by
  induction hj with
  | nil => exact ⟨List.nodup_nil, fun _ h => nomatch h⟩
  | @last h hforwards =>
    have hne := (Journey.last hforwards).not_mem_targets hs (fun _ hh => by cases hh; exact Nat.le_refl _)
      hforwards.state_left
    refine ⟨List.nodup_cons.mpr ⟨hne, List.nodup_singleton _⟩, fun w hw => ?_⟩
    rcases List.mem_cons.mp hw with rfl | hw
    · exact hforwards.worker_lt
    · rw [List.map_singleton, List.mem_singleton] at hw
      rw [hw]
      exact hforwards.reread.1
  | @cons h next hops hforwards hnext hreceives hrest ih =>
    have hroute : route (h :: next :: hops) = h.worker :: route (next :: hops) := by
      simp only [route, List.map_cons, hnext]
    have hne := (Journey.cons hforwards hnext hreceives hrest).not_mem_targets hs
      (fun _ hh => by cases hh; exact Nat.le_refl _) hforwards.state_left
    rw [hroute]
    refine ⟨List.nodup_cons.mpr ⟨?_, ih.1⟩, fun w hw => ?_⟩
    · simpa only [route, List.map_cons, hnext] using hne
    · rcases List.mem_cons.mp hw with rfl | hw
      · exact hforwards.worker_lt
      · exact ih.2 w hw

/-- **A connection is passed on by leaving workers fewer times than there are workers.** -/
theorem length_le (hj : Journey e fd hops) (hs : StartedOnce e) : hops.length ≤ workers - 1 := by
  obtain ⟨hnodup, hlt⟩ := hj.nodup_route hs
  have hsub : route hops ⊆ List.range workers := fun w hw => List.mem_range.mpr (hlt w hw)
  have hle := (List.subperm_of_subset hnodup hsub).length_le
  rw [List.length_range] at hle
  cases hops with
  | nil => exact Nat.zero_le _
  | cons h hops =>
    simp only [route, List.length_cons, List.length_map] at hle ⊢
    omega

end Journey

/-- **A passed connection goes to a fitting worker and stops moving**: `pick` answers this worker or
a willing sibling with the least load, below this worker's; a leaver keeps a connection when its
second scan read of no started sibling with a load below `_ANY_LOAD`; and in a run that starts no
worker again a sender posts to no worker that had left by its second look at the state, and leaving
workers pass a connection on at most `workers - 1` times. -/
theorem handoff_settles (workers : Nat) :
    (∀ me < workers, ∀ counter read ownActive now,
      Chosen workers me read (ownLoad me read ownActive) now false
        (pick workers me counter read ownActive now)) ∧
    (∀ me < workers, ∀ counter counter' read read' now,
      pickForLeaver workers me counter counter' read read' now = me →
        ∀ i < workers, i ≠ me → (read' i).load < anyLoad → ¬ (read' i).Open) ∧
    ∀ e : Execution workers, StartedOnce e →
      (∀ j ≤ e.labels.length, ∀ t w life target fd room,
        (e.state j).pc t = some (.worker w life (.post target fd room)) →
          ∃ c < j, (e.state c).pc t = some (.worker w life (.check target fd room)) ∧
            ∀ i ≤ c, ((e.state i).mem target).state ≠ stateLeft) ∧
      ∀ fd hops, Journey e fd hops → hops.length ≤ workers - 1 := by
  refine ⟨fun me hme counter read ownActive now => pick_chosen hme counter ownActive,
    fun me hme counter counter' read read' now h i hi hne hload =>
      pickForLeaver_self hme h hi hne hload, fun e hs => ⟨?_, ?_⟩⟩
  · intro j hj t w life target fd room hpc
    obtain ⟨c, hcj, hcheck, hstate, -⟩ := reread_of_post e hj hpc
    exact ⟨c, hcj, hcheck, fun i hi hleft => hstate (left_stays hs hi (by omega) hleft)⟩
  · exact fun fd hops hj => hj.length_le hs

/-- A sibling that has started and has not left, with a load that no load is above. -/
def crowded (_ : Nat) : Words := ⟨-2, 4611686018427387904, 0⟩

/-- A leaver keeps the connection although it read of such a sibling. -/
theorem crowded_kept :
    ¬ ∀ me < 2, ∀ counter counter' read read' now,
      pickForLeaver 2 me counter counter' read read' now = me →
        ∀ i < 2, i ≠ me → ¬ (read' i).Open :=
  fun h => h 0 (by decide) 0 0 crowded crowded 0 (by decide) 1 (by decide) (by decide) (by decide)

/-- Worker 1 hands a connection to worker 0, which leaves, takes it off its channel and passes it
back. -/
def passedBack : List (Threads.Label Who Op Res) :=
  started 0 ++ started 1 ++
    [⟨.worker 1 0, .call (.worker 1 0 (.send 0 7 true))⟩, ⟨.worker 1 0, .go⟩, ⟨.worker 1 0, .go⟩,
      ⟨.worker 1 0, .ret (.sent true)⟩,
      ⟨.worker 0 0, .call (.worker 0 0 .leave)⟩, ⟨.worker 0 0, .ret .done⟩,
      ⟨.worker 0 0, .call (.worker 0 0 .receive)⟩, ⟨.worker 0 0, .go⟩,
      ⟨.worker 0 0, .ret (.received (some 7))⟩,
      ⟨.worker 0 0, .call (.worker 0 0 (.send 1 7 true))⟩, ⟨.worker 0 0, .go⟩, ⟨.worker 0 0, .go⟩,
      ⟨.worker 0 0, .ret (.sent true)⟩]

theorem passedBack_runs :
    (((program 2).systemOf may (fun _ => Line.init)).run
      ((program 2).systemOf may (fun _ => Line.init)).init passedBack).isSome := by
  decide

/-- The execution of these labels. -/
abbrev passingBack : Execution 2 := .ofRun _ passedBack passedBack_runs

/-- The index a label calls a fork of. -/
def forkOf : Threads.Label Who Op Res → Option Nat
  | ⟨_, .call (.fork w)⟩ => some w
  | _ => none

theorem passingBack_startedOnce : StartedOnce passingBack := by
  have hforks : ∀ i < 27, ∀ j < 27, passedBack[i]?.bind forkOf ≠ none →
      passedBack[j]?.bind forkOf = passedBack[i]?.bind forkOf → i = j := by
    decide
  intro w i j hi hj
  have hi' : passedBack[i]? = some ⟨.supervisor, .call (.fork w)⟩ := hi
  have hj' : passedBack[j]? = some ⟨.supervisor, .call (.fork w)⟩ := hj
  refine hforks i (LabelledSystem.Execution.lt_length hi) j (LabelledSystem.Execution.lt_length hj)
    ?_ ?_
  · rw [hi']
    exact fun h => nomatch h
  · rw [hi', hj']

theorem passingBack_journey : Journey passingBack 7 [⟨0, 0, 1, 23, 26⟩] := by
  refine .last ⟨⟨true, rfl⟩, ⟨1, by decide⟩, ⟨by decide, rfl, fun k act hk hk' hl => ?_⟩⟩
  obtain rfl | rfl : k = 24 ∨ k = 25 := by
    have : 23 < k := hk
    have : k < 26 := hk'
    omega
  · cases hl
    rfl
  · cases hl
    rfl

theorem passingBack_settles :
    Journey passingBack 7 [⟨0, 0, 1, 23, 26⟩] ∧ [(⟨0, 0, 1, 23, 26⟩ : Hop)].length ≤ 2 - 1 :=
  ⟨passingBack_journey,
    ((handoff_settles 2).2.2 passingBack passingBack_startedOnce).2 7 _ passingBack_journey⟩

end MojoHttp.AcceptShare
