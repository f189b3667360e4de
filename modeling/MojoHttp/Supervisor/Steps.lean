import MojoHttp.Supervisor.Published

/-!
# What a step of the supervisor does

The table stays true to the workers as long as no respawn answers the death of another child: the
index such a respawn goes to is the one the last worker left, if any did.

* **`Freed`**, **`PointOk`** — where a worker that was just reaped has been, as long as the parent is
  to respawn it.
* **`Moves`** — a step of the parent between two calls, or at an answer that names no child.
* **`reaped_eq`**, **`removed_of_waited`**, **`forked_cases`** — the steps that change the table.
* **`Sound.step`**, **`sound_of_execution`** — the table stays true.
-/

namespace MojoHttp.Supervisor

/-! ## The parent -/

/-- The index a worker that was just reaped has left, as the respawn finds it. -/
def Freed (s : State) (w : Worker) : Prop :=
  ∃ i : ℕ, w.index = i ∧ s.lastFreedIndex = i ∧ s.childPids[i]? = some (-1)

/-- What the parent knows where it is. -/
def PointOk (cfg : Config) (s : State) : Mode → Prop
  | .forkTest i => i = s.childPids.length
  | .forking i => i = s.childPids.length ∧ i < cfg.numWorkers
  | .account (some w) .. | .budget (some w) _ | .rapid (some w) _ | .respawn (some w) _ => Freed s w
  | _ => True

structure Sound (cfg : Config) (s : State) : Prop where
  table : Table s.childPids s.workers
  size : s.childPids.length ≤ cfg.numWorkers
  point : PointOk cfg s s.mode

/-- `_try_respawn`, at its fork for a child that was no worker. -/
def Mode.respawnsOther : Mode → Bool
  | .respawn none _ => true
  | _ => false

/-- A respawn answers the death of a worker. -/
def Answers (s : State) : Act → Prop
  | .forked .. => s.mode.respawnsOther = false
  | _ => True

instance (s : State) : (a : Act) → Decidable (Answers s a)
  | .forked .. => inferInstanceAs (Decidable (s.mode.respawnsOther = false))
  | .run _ | .reaped .. | .forkRaised _ | .noChild | .noneExited | .drainOver | .scanned _
  | .signal _ | .exited .. => isTrue trivial

variable {cfg : Config} {s s' : State}

/-! ### Where a step may lead

Three kinds of points matter to more than one invariant. -/

/-- The parent is in a loop that reaps or scans, is forking again, or has left: it knows nothing of
one worker. -/
def Mode.rests : Mode → Bool
  | .forkTest _ | .forking _ | .account .. | .budget .. | .rapid .. | .respawn .. => false
  | _ => true

/-- `fork_all` and `_try_respawn`, past their test of the stop. -/
def Mode.forks : Mode → Bool
  | .forking _ | .budget .. | .rapid .. | .respawn .. => true
  | _ => false

/-- Every child the parent has forked is published, or is about to be. -/
def Mode.settles : Mode → Bool
  | .refork _ | .raised => false
  | _ => true

theorem pointOk_of_rests {m : Mode} (h : m.rests) : PointOk cfg s m := by
  cases m <;> trivial

theorem not_forks_of_rests {m : Mode} (h : m.rests) : m.forks = false := by
  cases m <;> first | rfl | cases h

theorem settles_of_forks {m : Mode} (h : m.forks) : m.settles := by
  cases m <;> first | rfl | cases h

theorem rests_enter (cfg : Config) (r : ℤ) : (State.enter cfg r).rests := by
  unfold State.enter
  split
  · split <;> rfl
  · rfl

theorem rests_resumeParent (cfg : Config) (r : ℤ) : (State.resumeParent cfg r).rests := by
  unfold State.resumeParent
  split
  · rfl
  · exact rests_enter cfg r

theorem rests_loopRest (s : State) : s.loopRest.mode.rests := by
  unfold State.loopRest
  dsimp only
  split <;> rfl

theorem rests_loopDrain (s : State) : s.loopDrain.mode.rests := by
  unfold State.loopDrain
  dsimp only
  split <;> rfl

theorem rests_loopForce (s : State) : s.loopForce.mode.rests := by
  unfold State.loopForce
  dsimp only
  split <;> rfl

/-! ### The parent between two calls -/

/-- Neither the workers nor what the parent shares with its handler is touched. -/
structure Same (s s' : State) : Prop where
  childPids : s'.childPids = s.childPids
  workers : s'.workers = s.workers
  block : s'.block = s.block
  stop : s'.stop = s.stop
  writes : s'.writes = s.writes
  check : s'.check = s.check

/-- A step from a point to a point. -/
structure Moves (cfg : Config) (s s' : State) : Prop where
  same : Same s s'
  point : PointOk cfg s s.mode → PointOk cfg s' s'.mode
  settles : s'.mode.settles → s.mode.settles
  forks : s'.mode.forks → s.mode.forks ∨ s.stop = 0
  observed : s'.observed → s.observed ∨ (s.stop ≠ 0 ∧ s'.mode.forks = false)

/-- A step to a point where the parent knows nothing of one worker. -/
theorem Moves.of_rests (hsame : Same s s') (hrests : s'.mode.rests) (hsettles : s.mode.settles)
    (hobserved : s'.observed → s.observed ∨ s.stop ≠ 0) : Moves cfg s s' where
  same := hsame
  point _ := pointOk_of_rests hrests
  settles _ := hsettles
  forks h := by rw [not_forks_of_rests hrests] at h; cases h
  observed h := (hobserved h).imp_right fun hstop => ⟨hstop, not_forks_of_rests hrests⟩

/-- Judging an exit sets flags of the supervisor's own exit, and nothing else. -/
theorem judgeStopped_eq (s : State) (status : ℕ) : ∃ refused failed,
    s.judgeStopped status = { s with configRefused := refused, failedStopping := failed } := by
  unfold State.judgeStopped
  split
  · dsimp only
    split
    · exact ⟨_, _, rfl⟩
    · exact ⟨_, _, rfl⟩
  · dsimp only
    split
    · exact ⟨_, _, rfl⟩
    · split
      · exact ⟨_, _, rfl⟩
      · exact ⟨_, _, rfl⟩

theorem moves_tryRespawn {dead : Option Worker} {r : ℤ} (hfreed : ∀ w, dead = some w → Freed s w)
    (hsettles : s.mode.settles) : Moves cfg s (s.tryRespawn cfg dead r) := by
  unfold State.tryRespawn
  split
  · rename_i hstop
    exact .of_rests ⟨rfl, rfl, rfl, rfl, rfl, rfl⟩ (rests_resumeParent cfg _) hsettles
      fun _ => Or.inr hstop
  · rename_i hstop
    refine ⟨⟨rfl, rfl, rfl, rfl, rfl, rfl⟩, fun _ => ?_, fun _ => hsettles,
      fun _ => Or.inr (not_not.mp hstop), Or.inl⟩
    cases dead with
    | none => trivial
    | some w => exact hfreed w rfl

theorem moves_accountForExit {dead : Option Worker} {status : ℕ} {r : ℤ}
    (hfreed : ∀ w, dead = some w → Freed s w) (hsettles : s.mode.settles) :
    Moves cfg s (s.accountForExit cfg dead status r) := by
  unfold State.accountForExit
  split
  · dsimp only
    split
    · obtain ⟨refused, failed, heq⟩ := judgeStopped_eq s status
      rw [heq]
      exact .of_rests ⟨rfl, rfl, rfl, rfl, rfl, rfl⟩ (rests_loopRest _) hsettles Or.inl
    · exact moves_tryRespawn hfreed hsettles
  · dsimp only
    split
    · split
      · exact .of_rests ⟨rfl, rfl, rfl, rfl, rfl, rfl⟩ (rests_loopRest _) hsettles Or.inl
      · exact .of_rests ⟨rfl, rfl, rfl, rfl, rfl, rfl⟩ rfl hsettles Or.inl
    · split
      · exact moves_tryRespawn hfreed hsettles
      · exact .of_rests ⟨rfl, rfl, rfl, rfl, rfl, rfl⟩ (rests_resumeParent cfg _) hsettles Or.inl

/-- From one point of `_try_respawn` past its test of the stop to another. -/
theorem Moves.of_forks (hsame : Same s s') (hobserved : s'.observed = s.observed)
    (hpoint : PointOk cfg s' s'.mode) (hforks : s.mode.forks) : Moves cfg s s' where
  same := hsame
  point _ := hpoint
  settles _ := settles_of_forks hforks
  forks _ := Or.inl hforks
  observed h := Or.inl (hobserved ▸ h)

theorem moves_countRespawns {dead : Option Worker} {r now : ℤ}
    (hfreed : ∀ w, dead = some w → Freed s w) (hforks : s.mode.forks) :
    Moves cfg s (s.countRespawns cfg dead r now) := by
  unfold State.countRespawns
  dsimp only
  split
  · exact .of_rests ⟨rfl, rfl, rfl, rfl, rfl, rfl⟩ (rests_resumeParent cfg _)
      (settles_of_forks hforks) Or.inl
  · refine .of_forks ⟨rfl, rfl, rfl, rfl, rfl, rfl⟩ rfl ?_ hforks
    cases dead with
    | none => trivial
    | some w => exact hfreed w rfl

theorem moves_countRapidCrash {dead : Option Worker} {r now : ℤ}
    (hfreed : ∀ w, dead = some w → Freed s w) (hforks : s.mode.forks) :
    Moves cfg s (s.countRapidCrash cfg dead r now) := by
  have hpoint : ∀ n : ℕ, PointOk cfg
      { s with rapidCrashCount := n, mode := .respawn dead r } (.respawn dead r) := by
    intro n
    cases dead with
    | none => trivial
    | some w => exact hfreed w rfl
  unfold State.countRapidCrash
  split
  · dsimp only
    split
    · exact .of_rests ⟨rfl, rfl, rfl, rfl, rfl, rfl⟩ (rests_resumeParent cfg _)
        (settles_of_forks hforks) Or.inl
    · exact .of_forks ⟨rfl, rfl, rfl, rfl, rfl, rfl⟩ rfl (hpoint _) hforks
  · exact .of_forks ⟨rfl, rfl, rfl, rfl, rfl, rfl⟩ rfl (hpoint _) hforks

/-- **The parent between two calls**: from a point to a point, or at the end of a reload. -/
theorem moves_runMode {now : ℤ} (h : s.runMode cfg now = some s') (hpoint : PointOk cfg s s.mode) :
    Moves cfg s s' ∨ ((∃ i, s.mode = .refork i) ∧ s' = s.endReload cfg) := by
  unfold State.runMode at h
  split at h
  · rename_i i hmode
    have hsettles : s.mode.settles := by rw [hmode]; rfl
    split at h
    · obtain rfl := Option.some.inj h
      exact Or.inl (.of_rests ⟨rfl, rfl, rfl, rfl, rfl, rfl⟩ (rests_enter cfg _) hsettles Or.inl)
    · rename_i hmore
      split at h
      · rename_i hstop
        obtain rfl := Option.some.inj h
        exact Or.inl (.of_rests ⟨rfl, rfl, rfl, rfl, rfl, rfl⟩ (rests_enter cfg _) hsettles
          fun _ => Or.inr hstop)
      · rename_i hstop
        obtain rfl := Option.some.inj h
        rw [hmode] at hpoint
        exact Or.inl ⟨⟨rfl, rfl, rfl, rfl, rfl, rfl⟩, fun _ => ⟨hpoint, by omega⟩, fun _ => hsettles,
          fun _ => Or.inr (not_not.mp hstop), Or.inl⟩
  · rename_i dead status r hmode
    obtain rfl := Option.some.inj h
    refine Or.inl (moves_accountForExit ?_ (by rw [hmode]; rfl))
    rintro w rfl
    rw [hmode] at hpoint
    exact hpoint
  · rename_i dead r hmode
    obtain rfl := Option.some.inj h
    refine Or.inl (moves_countRespawns ?_ (by rw [hmode]; rfl))
    rintro w rfl
    rw [hmode] at hpoint
    exact hpoint
  · rename_i dead r hmode
    obtain rfl := Option.some.inj h
    refine Or.inl (moves_countRapidCrash ?_ (by rw [hmode]; rfl))
    rintro w rfl
    rw [hmode] at hpoint
    exact hpoint
  · rename_i i hmode
    split at h
    · obtain rfl := Option.some.inj h
      exact Or.inr ⟨⟨i, hmode⟩, rfl⟩
    · split at h
      · obtain rfl := Option.some.inj h
        exact Or.inl ⟨⟨rfl, rfl, rfl, rfl, rfl, rfl⟩, fun _ => trivial, Bool.noConfusion, Bool.noConfusion, Or.inl⟩
      · cases h
  · cases h

theorem pointOk_congr {m : Mode} (hpids : s'.childPids = s.childPids)
    (hfreed : s'.lastFreedIndex = s.lastFreedIndex) (h : PointOk cfg s m) : PointOk cfg s' m := by
  have hsame : ∀ w, Freed s w → Freed s' w := by
    intro w hw
    rw [Freed, hpids, hfreed]
    exact hw
  cases m with
  | forkTest i => rw [PointOk, hpids]; exact h
  | forking i => rw [PointOk, hpids]; exact h
  | account dead =>
    cases dead with
    | none => trivial
    | some w => exact hsame w h
  | budget dead =>
    cases dead with
    | none => trivial
    | some w => exact hsame w h
  | rapid dead =>
    cases dead with
    | none => trivial
    | some w => exact hsame w h
  | respawn dead =>
    cases dead with
    | none => trivial
    | some w => exact hsame w h
  | _ => trivial

theorem Sound.of_moves (h : Sound cfg s) (hm : Moves cfg s s') : Sound cfg s' where
  table := by rw [hm.same.childPids, hm.same.workers]; exact h.table
  size := by rw [hm.same.childPids]; exact h.size
  point := hm.point h.point

/-- A step that leaves the table, the workers and the point alone. -/
theorem Sound.of_eq (h : Sound cfg s) (hpids : s'.childPids = s.childPids)
    (hworkers : s'.workers = s.workers) (hfreed : s'.lastFreedIndex = s.lastFreedIndex)
    (hmode : s'.mode = s.mode) : Sound cfg s' where
  table := by rw [hpids, hworkers]; exact h.table
  size := by rw [hpids]; exact h.size
  point := by rw [hmode]; exact pointOk_congr hpids hfreed h.point

/-- What happens to the workers short of reaping leaves the parent where it is. -/
theorem Sound.of_map (h : Sound cfg s) {f : Worker → Worker} (hpid : ∀ w, (f w).pid = w.pid)
    (hindex : ∀ w, (f w).index = w.index) (hlive : ∀ w, (f w).Live ↔ w.Live)
    (hworkers : s'.workers = s.workers.map f) (hpids : s'.childPids = s.childPids)
    (hfreed : s'.lastFreedIndex = s.lastFreedIndex) (hmode : s'.mode = s.mode) : Sound cfg s' where
  table := by rw [hworkers, hpids]; exact h.table.map hpid hindex hlive
  size := by rw [hpids]; exact h.size
  point := by rw [hmode]; exact pointOk_congr hpids hfreed h.point

theorem kill_live (pid : ℤ) (sig : ℕ) (w : Worker) : (w.kill pid sig).Live ↔ w.Live := by
  rw [Worker.Live, Worker.kill_phase, Worker.Live]

theorem Sound.killOne (h : Sound cfg s) (i : ℕ) : Sound cfg (s.killOne i) := by
  unfold State.killOne
  dsimp only
  split
  · exact h.of_map (Worker.kill_pid _ _) (Worker.kill_index _ _) (kill_live _ _) rfl rfl rfl rfl
  · exact h

/-- The handler, in the process that published the list it reads. -/
theorem onSupervisorSignal_eq (sig : ℕ) (howner : s.block.owner = cfg.pid) :
    s.onSupervisorSignal cfg sig = { s with
      stop := sig
      workers := s.workers.map (Worker.signalled s.block sig (List.range s.block.count)) } := by
  unfold State.onSupervisorSignal
  dsimp only
  rw [if_neg (not_not.mpr howner), foldl_map_kill]

theorem Sound.onSupervisorSignal (h : Sound cfg s) (sig : ℕ) :
    Sound cfg (s.onSupervisorSignal cfg sig) := by
  by_cases howner : s.block.owner = cfg.pid
  · rw [onSupervisorSignal_eq sig howner]
    refine h.of_map (f := Worker.signalled s.block sig (List.range s.block.count))
      (fun w => (signalled_eq _ _ _ w).1) (fun w => (signalled_eq _ _ _ w).2.1) (fun w => ?_)
      rfl rfl rfl rfl
    rw [Worker.Live, (signalled_eq _ _ _ w).2.2.2.1, Worker.Live]
  · unfold State.onSupervisorSignal
    dsimp only
    rw [if_pos howner]
    exact h.of_eq rfl rfl rfl rfl

theorem Sound.run (h : Sound cfg s) {now : ℤ} (hrun : s.run cfg now = some s') : Sound cfg s' := by
  unfold State.run at hrun
  split at hrun
  · obtain rfl := Option.some.inj hrun
    exact h.of_eq rfl rfl rfl rfl
  · split at hrun
    · obtain rfl := Option.some.inj hrun
      unfold State.checkStop
      dsimp only
      split
      · exact h.of_eq rfl rfl rfl rfl
      · exact h.of_eq rfl rfl rfl rfl
    · split at hrun
      · rename_i i kills _
        obtain rfl := Option.some.inj hrun
        have hrest : Sound cfg { s with kills } := h.of_eq rfl rfl rfl rfl
        exact hrest.killOne i
      · rcases moves_runMode hrun h.point with hmoves | ⟨-, rfl⟩
        · exact h.of_moves hmoves
        · exact ⟨h.table, h.size, pointOk_of_rests (rests_enter cfg _)⟩

/-! ### Reaping -/

/-- Whose status it was, and that nobody else holds the PID. -/
theorem waited_cases {pid : ℤ} {status : ℕ} {dead : Option Worker}
    (h : s.waited pid status = some dead) :
    (∃ w ∈ s.workers, dead = some w ∧ w.pid = pid ∧ w.phase = .exited status) ∨
      (dead = none ∧ 0 < pid ∧ ∀ w ∈ s.workers, w.Live → w.pid ≠ pid) := by
  unfold State.waited at h
  split at h
  · rename_i w hfind
    have hw := List.find?_some hfind
    have hboth : w.pid = pid ∧ w.phase = .exited status := of_decide_eq_true hw
    exact Or.inl ⟨w, List.mem_of_find?_eq_some hfind, (Option.some.inj h).symm, hboth⟩
  · split at h
    · rename_i hother
      exact Or.inr ⟨(Option.some.inj h).symm, hother⟩
    · cases h

/-- The parent past `waitpid` and `_remove_pid`. -/
def State.removed (cfg : Config) (s : State) (pid : ℤ) : State :=
  { s with workers := s.workers.map (Worker.reap pid) }.removePid cfg pid

theorem removed_worker (cfg : Config) (h : Table s.childPids s.workers) {w : Worker} (hw : w ∈ s.workers)
    (hlive : w.Live) : ∃ i : ℕ, w.index = i ∧ s.childPids[i]? = some w.pid ∧
      s.removed cfg w.pid = { s with
        workers := s.workers.map (Worker.reap w.pid)
        childPids := s.childPids.set i (-1)
        lastFreedIndex := i
        writes := publishChildPids cfg.pid s.block.count (s.childPids.set i (-1)) } := by
  obtain ⟨i, hi, hentry, hfind⟩ := h.findIdx?_worker hw hlive
  refine ⟨i, hi, hentry, ?_⟩
  unfold State.removed State.removePid
  dsimp only
  rw [hfind]
  rfl

theorem removed_other (h : Table s.childPids s.workers) {pid : ℤ} (hpos : 0 < pid)
    (hother : ∀ w ∈ s.workers, w.Live → w.pid ≠ pid) : s.removed cfg pid = s := by
  unfold State.removed State.removePid
  dsimp only
  rw [h.findIdx?_other hpos hother, map_reap_other hother]

theorem reaped_eq {pid : ℤ} {status : ℕ} (h : s.reaped cfg pid status = some s') :
    ∃ dead, s.waited pid status = some dead ∧
      ((∃ r, (s.mode = .supervise r ∨ s.mode = .supervisePolling r) ∧
          s' = { s.removed cfg pid with mode := .account dead status r }) ∨
        (s.mode = .reapTheRest ∧ s' = ((s.removed cfg pid).judgeStopped status).loopRest) ∨
        (s.mode = .drain ∧ s' = (s.removed cfg pid).loopDrain) ∨
        (s.mode = .force ∧ s' = (s.removed cfg pid).loopForce)) := by
  have hmode : (s.removed cfg pid).mode = s.mode := by
    unfold State.removed State.removePid
    dsimp only
    split <;> rfl
  obtain ⟨dead, hdead, hreaped⟩ := Option.bind_eq_some_iff.mp h
  refine ⟨dead, hdead, ?_⟩
  unfold State.removed at hmode
  unfold State.reapedAs at hreaped
  dsimp only at hreaped
  rw [hmode] at hreaped
  split at hreaped
  · rename_i r hm
    exact Or.inl ⟨r, Or.inl hm, (Option.some.inj hreaped).symm⟩
  · rename_i r hm
    exact Or.inl ⟨r, Or.inr hm, (Option.some.inj hreaped).symm⟩
  · rename_i hm
    exact Or.inr (Or.inl ⟨hm, (Option.some.inj hreaped).symm⟩)
  · rename_i hm
    exact Or.inr (Or.inr (Or.inl ⟨hm, (Option.some.inj hreaped).symm⟩))
  · rename_i hm
    exact Or.inr (Or.inr (Or.inr ⟨hm, (Option.some.inj hreaped).symm⟩))
  · cases hreaped

/-- What reaping leaves of the table and the workers, and the index of a worker that was reaped. -/
structure Removed (cfg : Config) (s t : State) (dead : Option Worker) : Prop where
  table : Table t.childPids t.workers
  size : t.childPids.length = s.childPids.length
  freed : ∀ w, dead = some w → Freed t w

theorem removed_of_waited (h : Sound cfg s) {pid : ℤ} {status : ℕ} {dead : Option Worker}
    (hw : s.waited pid status = some dead) : Removed cfg s (s.removed cfg pid) dead := by
  rcases waited_cases hw with ⟨w, hmem, rfl, rfl, hexited⟩ | ⟨rfl, hpos, hother⟩
  · have hlive : w.Live := Worker.live_of_exited hexited
    obtain ⟨i, hi, hentry, heq⟩ := removed_worker cfg h.table hmem hlive
    rw [heq]
    refine ⟨h.table.reap hmem hlive hi, List.length_set, ?_⟩
    rintro _ ⟨⟩
    have hlt : i < s.childPids.length := (List.getElem?_eq_some_iff.mp hentry).1
    exact ⟨i, hi, rfl, List.getElem?_set_self hlt⟩
  · rw [removed_other h.table hpos hother]
    exact ⟨h.table, rfl, fun w hw => by cases hw⟩

theorem Sound.reaped (h : Sound cfg s) {pid : ℤ} {status : ℕ}
    (hr : s.reaped cfg pid status = some s') : Sound cfg s' := by
  obtain ⟨dead, hwaited, hcases⟩ := reaped_eq hr
  have hremoved := removed_of_waited h hwaited
  have hsize : (s.removed cfg pid).childPids.length ≤ cfg.numWorkers := hremoved.size ▸ h.size
  rcases hcases with ⟨r, -, rfl⟩ | ⟨-, rfl⟩ | ⟨-, rfl⟩ | ⟨-, rfl⟩
  · refine ⟨hremoved.table, hsize, ?_⟩
    cases dead with
    | none => trivial
    | some w => exact hremoved.freed w rfl
  · obtain ⟨refused, failed, heq⟩ := judgeStopped_eq (s.removed cfg pid) status
    rw [heq]
    exact ⟨hremoved.table, hsize, pointOk_of_rests (rests_loopRest _)⟩
  · exact ⟨hremoved.table, hsize, pointOk_of_rests (rests_loopDrain _)⟩
  · exact ⟨hremoved.table, hsize, pointOk_of_rests (rests_loopForce _)⟩

/-! ### Forking -/

/-- Where a fork puts its child. -/
theorem forked_cases {pid now : ℤ} (h : s.forked cfg pid now = some s') :
    0 < pid ∧ (∀ w ∈ s.workers, w.Live → w.pid ≠ pid) ∧
      ((∃ i, s.mode = .forking i ∧ s' = { s with
          workers := s.workers ++ [⟨pid, i, s.stop ≠ 0, [], .running⟩]
          lastForkNs := now
          childPids := s.childPids ++ [pid]
          writes := publishChildPids cfg.pid s.block.count (s.childPids ++ [pid])
          check := true
          mode := .forkTest (i + 1) }) ∨
        (∃ dead r, s.mode = .respawn dead r ∧
          s' = ((s.noteRespawn now).spawn pid s.lastFreedIndex).placeRespawn cfg pid r) ∨
        (∃ i p, s.mode = .refork i ∧ s.childPids[i]? = some p ∧ p ≤ 0 ∧ s' = { s with
          workers := s.workers ++ [⟨pid, i, s.stop ≠ 0, [], .running⟩]
          lastForkNs := now
          childPids := s.childPids.set i pid
          mode := .refork (i + 1) })) := by
  unfold State.forked at h
  split at h
  · rename_i hfresh
    refine ⟨hfresh.1, hfresh.2, ?_⟩
    split at h
    · rename_i i hm
      exact Or.inl ⟨i, hm, (Option.some.inj h).symm⟩
    · rename_i dead r hm
      exact Or.inr (Or.inl ⟨dead, r, hm, (Option.some.inj h).symm⟩)
    · rename_i i hm
      split at h
      · rename_i hvacant
        refine Or.inr (Or.inr ⟨i, ?_⟩)
        cases hi : s.childPids[i]? with
        | none =>
          rw [List.getD_eq_getElem?_getD, hi] at hvacant
          cases hvacant
        | some p =>
          rw [List.getD_eq_getElem?_getD, hi] at hvacant
          exact ⟨p, hm, rfl, hvacant, (Option.some.inj h).symm⟩
      · cases h
    · cases h
  · cases h

/-- A respawn goes to the index the dead worker left. -/
theorem placeRespawn_freed (cfg : Config) {w : Worker} (h : Freed s w) (pid now r : ℤ) :
    ∃ i : ℕ, w.index = i ∧ s.childPids[i]? = some (-1) ∧
      ((s.noteRespawn now).spawn pid s.lastFreedIndex).placeRespawn cfg pid r = { s with
        workers := s.workers ++ [⟨pid, w.index, s.stop ≠ 0, [], .running⟩]
        respawnCount := s.respawnCount + 1
        lastForkNs := now
        respawnTimes := s.respawnTimes ++ [now]
        childPids := s.childPids.set i pid
        writes := publishChildPids cfg.pid s.block.count (s.childPids.set i pid)
        check := true
        mode := State.resumeParent cfg r } := by
  obtain ⟨i, hi, hlast, hentry⟩ := h
  refine ⟨i, hi, hentry, ?_⟩
  have hlt : i < s.childPids.length := (List.getElem?_eq_some_iff.mp hentry).1
  have hinside : 0 ≤ s.lastFreedIndex ∧ s.lastFreedIndex < s.childPids.length := by omega
  unfold State.placeRespawn State.spawn State.noteRespawn State.publishChildren State.startPublish
  dsimp only
  rw [if_pos hinside, hi, hlast, Int.toNat_natCast]

theorem Sound.forked (h : Sound cfg s) {pid now : ℤ} (hf : s.forked cfg pid now = some s')
    (hanswers : Answers s (.forked pid now)) : Sound cfg s' := by
  obtain ⟨hpos, hfresh, ⟨i, hm, rfl⟩ | ⟨dead, r, hm, rfl⟩ | ⟨i, p, hm, hentry, hvacant, rfl⟩⟩ :=
    forked_cases hf
  · have hpoint := h.point
    rw [hm] at hpoint
    obtain ⟨hi, hlt⟩ := hpoint
    refine ⟨h.table.spawn rfl (Worker.live_of_running rfl) hpos hfresh ?_ ?_ ?_, ?_, ?_⟩
    · intro p hp
      rw [hi, List.getElem?_eq_none (Nat.le_refl _)] at hp
      cases hp
    · rw [hi, List.getElem?_concat_length]
    · intro j hj
      dsimp only
      rcases Nat.lt_or_ge j s.childPids.length with hlt | hge
      · rw [List.getElem?_append_left hlt]
      · rw [List.getElem?_eq_none hge, List.getElem?_eq_none]
        rw [List.length_append, List.length_singleton]
        omega
    · dsimp only
      rw [List.length_append, List.length_singleton]
      omega
    · show i + 1 = (s.childPids ++ [pid]).length
      rw [List.length_append, List.length_singleton, hi]
  · cases dead with
    | none =>
      rw [Answers, hm] at hanswers
      cases hanswers
    | some w =>
      have hpoint := h.point
      rw [hm] at hpoint
      obtain ⟨i, hi, hentry, heq⟩ := placeRespawn_freed cfg hpoint pid now r
      have hlt : i < s.childPids.length := (List.getElem?_eq_some_iff.mp hentry).1
      rw [heq]
      refine ⟨h.table.spawn hi (Worker.live_of_running rfl) hpos hfresh ?_ ?_ ?_, ?_, pointOk_of_rests (rests_resumeParent cfg r)⟩
      · intro p hp
        rw [hentry] at hp
        obtain rfl := Option.some.inj hp
        decide
      · exact List.getElem?_set_self hlt
      · exact fun j hj => List.getElem?_set_ne (Ne.symm hj)
      · dsimp only
        rw [List.length_set]
        exact h.size
  · have hlt : i < s.childPids.length := (List.getElem?_eq_some_iff.mp hentry).1
    refine ⟨h.table.spawn rfl (Worker.live_of_running rfl) hpos hfresh ?_ ?_ ?_, ?_, trivial⟩
    · intro q hq
      rw [hentry] at hq
      obtain rfl := Option.some.inj hq
      exact hvacant
    · exact List.getElem?_set_self hlt
    · exact fun j hj => List.getElem?_set_ne (Ne.symm hj)
    · dsimp only
      rw [List.length_set]
      exact h.size

/-! ## Every step -/

theorem moves_forkRaised {now : ℤ} (h : s.forkRaised now = some s') : Moves cfg s s' := by
  unfold State.forkRaised at h
  split at h
  · obtain rfl := Option.some.inj h
    exact ⟨⟨rfl, rfl, rfl, rfl, rfl, rfl⟩, fun _ => trivial, Bool.noConfusion, Bool.noConfusion, Or.inl⟩
  · obtain rfl := Option.some.inj h
    exact ⟨⟨rfl, rfl, rfl, rfl, rfl, rfl⟩, fun _ => trivial, Bool.noConfusion, Bool.noConfusion, Or.inl⟩
  · split at h
    · obtain rfl := Option.some.inj h
      exact ⟨⟨rfl, rfl, rfl, rfl, rfl, rfl⟩, fun _ => trivial, Bool.noConfusion, Bool.noConfusion, Or.inl⟩
    · cases h
  · cases h

theorem moves_noChild (h : s.noChild = some s') : Moves cfg s s' := by
  unfold State.noChild at h
  split at h
  · split at h
    · rename_i hmode
      obtain rfl := Option.some.inj h
      exact .of_rests ⟨rfl, rfl, rfl, rfl, rfl, rfl⟩ rfl (by rw [hmode]; rfl) Or.inl
    · rename_i hmode
      obtain rfl := Option.some.inj h
      exact .of_rests ⟨rfl, rfl, rfl, rfl, rfl, rfl⟩ rfl (by rw [hmode]; rfl) Or.inl
    · rename_i hmode
      obtain rfl := Option.some.inj h
      exact .of_rests ⟨rfl, rfl, rfl, rfl, rfl, rfl⟩ rfl (by rw [hmode]; rfl) Or.inl
    · rename_i hmode
      obtain rfl := Option.some.inj h
      exact .of_rests ⟨rfl, rfl, rfl, rfl, rfl, rfl⟩ rfl (by rw [hmode]; rfl) Or.inl
    · rename_i hmode
      obtain rfl := Option.some.inj h
      exact .of_rests ⟨rfl, rfl, rfl, rfl, rfl, rfl⟩ rfl (by rw [hmode]; rfl) Or.inl
    · cases h
  · cases h

theorem moves_noneExited (h : s.noneExited = some s') : Moves cfg s s' := by
  unfold State.noneExited at h
  split at h
  · rename_i hmode
    obtain rfl := Option.some.inj h
    refine .of_rests ⟨rfl, rfl, rfl, rfl, rfl, rfl⟩ ?_ (by rw [hmode]; rfl) Or.inl
    dsimp only
    split <;> rfl
  · rename_i hmode
    obtain rfl := Option.some.inj h
    exact .of_rests ⟨rfl, rfl, rfl, rfl, rfl, rfl⟩ (by rw [hmode]; rfl) (by rw [hmode]; rfl) Or.inl
  · cases h

theorem moves_drainOver (h : s.drainOver = some s') : Moves cfg s s' := by
  unfold State.drainOver at h
  split at h
  · rename_i hmode
    obtain rfl := Option.some.inj h
    exact .of_rests ⟨rfl, rfl, rfl, rfl, rfl, rfl⟩ (rests_loopForce _) (by rw [hmode]; rfl) Or.inl
  · cases h

theorem moves_scanned {changed : Bool} (h : s.scanned changed = some s') : Moves cfg s s' := by
  unfold State.scanned at h
  split at h
  · rename_i hmode
    have hsettles : s.mode.settles := by rw [hmode]; rfl
    split at h
    · obtain rfl := Option.some.inj h
      exact .of_rests ⟨rfl, rfl, rfl, rfl, rfl, rfl⟩ (rests_loopDrain _) hsettles Or.inl
    · obtain rfl := Option.some.inj h
      refine .of_rests ⟨rfl, rfl, rfl, rfl, rfl, rfl⟩ ?_ hsettles Or.inl
      dsimp only
      split <;> rfl
  · cases h

/-- What a step of `next` is: of the parent between two calls, of one of its calls, or of nobody the
parent waits for. -/
theorem next_call {a : Act} (h : s.next cfg a = some s') :
    (∃ now, a = .run now ∧ s.run cfg now = some s') ∨
      (∃ sig, a = .signal sig ∧ (sig = sigterm ∨ sig = sigint) ∧
        s' = s.onSupervisorSignal cfg sig) ∨
      (∃ pid status, a = .exited pid status ∧
        s' = { s with workers := s.workers.map (Worker.exit pid status) }) ∨
      (s.Idle ∧ s.call cfg a = some s') := by
  have hcall : ∀ {o : Option State}, (if s.Idle then o else none) = some s' →
      s.Idle ∧ o = some s' := by
    intro o ho
    split at ho
    · exact ⟨‹_›, ho⟩
    · cases ho
  cases a with
  | run now => exact Or.inl ⟨now, rfl, h⟩
  | signal sig =>
    rw [State.next] at h
    split at h
    · exact Or.inr (Or.inl ⟨sig, rfl, ‹_›, (Option.some.inj h).symm⟩)
    · cases h
  | exited pid status =>
    exact Or.inr (Or.inr (Or.inl ⟨pid, status, rfl, (Option.some.inj h).symm⟩))
  | _ => exact Or.inr (Or.inr (Or.inr (hcall h)))

/-- **One step keeps the table true**, if it is not a respawn for another child's death. -/
theorem Sound.step (h : Sound cfg s) {a : Act} (hn : s.next cfg a = some s') (ha : Answers s a) :
    Sound cfg s' := by
  obtain ⟨now, rfl, hrun⟩ | ⟨sig, rfl, -, rfl⟩ | ⟨pid, status, rfl, rfl⟩ | ⟨-, hcall⟩ := next_call hn
  · exact h.run hrun
  · exact h.onSupervisorSignal sig
  · exact h.of_map (Worker.exit_pid _ _) (Worker.exit_index _ _) (Worker.exit_live _ _) rfl rfl rfl rfl
  · cases a with
    | forked pid now => exact h.forked hcall ha
    | forkRaised now => exact h.of_moves (moves_forkRaised hcall)
    | reaped pid status => exact h.reaped hcall
    | noChild => exact h.of_moves (moves_noChild hcall)
    | noneExited => exact h.of_moves (moves_noneExited hcall)
    | drainOver => exact h.of_moves (moves_drainOver hcall)
    | scanned changed => exact h.of_moves (moves_scanned hcall)
    | _ => cases hcall

theorem sound_armed (cfg : Config) : Sound cfg (.armed cfg) := ⟨.nil, Nat.zero_le _, rfl⟩

/-- Every respawn of the execution answers the death of a worker. -/
def Answered (e : (supervision cfg).Execution) : Prop :=
  ∀ k a, e.labels[k]? = some a → Answers (e.state k) a

/-- **The table is true at every instant.** -/
theorem sound_of_execution (e : (supervision cfg).Execution) (h : Answered e) :
    ∀ k ≤ e.labels.length, Sound cfg (e.state k) := by
  intro k hk
  refine e.stays (P := Sound cfg) (Nat.zero_le k) hk (by rw [e.start]; exact sound_armed cfg) ?_
  exact fun j a _ _ ha hsound => hsound.step (e.steps ha) (h j a ha)

end MojoHttp.Supervisor
