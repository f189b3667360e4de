import MojoHttp.Supervisor.Steps

/-!
# The workers a supervisor keeps

The loops count `remaining` apart from the table. As long as each child they reap is a worker in the
table, the count is that of the live entries, so the loops return with every worker reaped, and a
respawn goes to the index the dead worker left.

`_account_for_exit` does not look whether `_remove_pid` found the PID. An orphan the supervisor was
given as PID 1 that exits with 0 is counted as a worker that retired, and one that crashes is
respawned into the index the last worker left, or none.

* **`CountOk`** — what `remaining` counts, where the parent is.
* **`Counted.step`** — one step keeps the count.
* **`keepsWorkers_of_execution`** — the workers are kept, in every run whose loops reap workers.
* **`orphanExits_not_keepsWorkers`** — an orphan's clean exit ends the loop over a worker that runs.
-/

namespace MojoHttp.Supervisor

variable {cfg : Config} {s s' : State}

/-! ## What is claimed -/

/-- Each index has at most one worker that is not reaped, its entry is the PID, and the loops return
with every worker reaped. -/
structure Kept (s : State) : Prop where
  one : s.workers.Pairwise fun w w' => w.Live → w'.Live → w.index ≠ w'.index
  named : ∀ w ∈ s.workers, w.Live → ∃ i : ℕ, w.index = i ∧ s.childPids[i]? = some w.pid
  returned : s.mode = .returned → ∀ w ∈ s.workers, w.phase = .reaped

/-- A respawn forks one worker, for the index of the worker that just died. -/
def RespawnOk (s s' : State) : Act → Prop
  | .forked pid _ => ∀ dead remaining, s.mode = .respawn dead remaining →
    ∃ w, dead = some w ∧ s'.workers = s.workers ++ [⟨pid, w.index, s.stop ≠ 0, [], .running⟩]
  | _ => True

/-- The supervisor keeps exactly the workers it names. -/
structure KeepsWorkers (e : (supervision cfg).Execution) : Prop where
  kept : ∀ k ≤ e.labels.length, Kept (e.state k)
  respawns : ∀ k a, e.labels[k]? = some a → RespawnOk (e.state k) (e.state (k + 1)) a

/-- A status that ends supervision, whoever's it is: death by SIGTERM or SIGINT, and a refusal. -/
def EndsSupervision (status : ℕ) : Prop :=
  if wasSignaled status then termSignal status = sigterm ∨ termSignal status = sigint
  else exitCode status = exConfig

instance (status : ℕ) : Decidable (EndsSupervision status) :=
  inferInstanceAs (Decidable (if wasSignaled status then
    termSignal status = sigterm ∨ termSignal status = sigint else exitCode status = exConfig))

def Mode.supervising : Mode → Bool
  | .supervise _ | .supervisePolling _ => true
  | _ => false

/-- What the loops reap is in the table, or ends supervision. -/
def ReapsOwn (s : State) : Act → Prop
  | .reaped pid status => s.mode.supervising → pid ∈ s.childPids ∨ EndsSupervision status
  | _ => True

instance (s : State) : (a : Act) → Decidable (ReapsOwn s a)
  | .reaped pid status =>
    inferInstanceAs (Decidable (s.mode.supervising → pid ∈ s.childPids ∨ EndsSupervision status))
  | .run _ | .forked .. | .forkRaised _ | .noChild | .noneExited | .drainOver | .scanned _
  | .signal _ | .exited .. => isTrue trivial

/-! ## The count -/

def CountOk (s : State) : Mode → Prop
  | .supervise r | .supervisePolling r | .scan r => r = s.aliveCount
  | .account (some _) _ r => r = s.aliveCount + 1
  | .account none status _ => EndsSupervision status
  | .budget dead r | .rapid dead r | .respawn dead r => dead ≠ none ∧ r = s.aliveCount + 1
  | .returned => s.aliveCount = 0
  | _ => True

theorem countOk_congr {m : Mode} (hpids : s'.childPids = s.childPids) (h : CountOk s m) :
    CountOk s' m := by
  have halive : s'.aliveCount = s.aliveCount := by rw [State.aliveCount, hpids, State.aliveCount]
  cases m with
  | account dead =>
    cases dead with
    | none => exact h
    | some w => rw [CountOk, halive]; exact h
  | supervise r => rw [CountOk, halive]; exact h
  | supervisePolling r => rw [CountOk, halive]; exact h
  | scan r => rw [CountOk, halive]; exact h
  | budget dead r => rw [CountOk, halive]; exact h
  | rapid dead r => rw [CountOk, halive]; exact h
  | respawn dead r => rw [CountOk, halive]; exact h
  | returned => rw [CountOk, halive]; exact h
  | _ => trivial

theorem countOk_enter {r : ℤ} (h : r = s.aliveCount) : CountOk s (State.enter cfg r) := by
  unfold State.enter
  split
  · split <;> exact h
  · show s.aliveCount = 0
    omega

theorem countOk_resumeParent {r : ℤ} (h : r = s.aliveCount) :
    CountOk s (State.resumeParent cfg r) := by
  unfold State.resumeParent
  split
  · exact h
  · exact countOk_enter h

theorem countOk_resumeFailed {r : ℤ} (h : r = s.aliveCount + 1) :
    CountOk s (State.resumeFailed cfg r) :=
  countOk_resumeParent (by omega)

theorem countOk_loopRest (s : State) : CountOk s.loopRest s.loopRest.mode := by
  unfold State.loopRest
  dsimp only
  split
  · trivial
  · show s.aliveCount = 0
    omega

theorem countOk_loopDrain (s : State) : CountOk s.loopDrain s.loopDrain.mode := by
  unfold State.loopDrain
  dsimp only
  split <;> trivial

theorem countOk_loopForce (s : State) : CountOk s.loopForce s.loopForce.mode := by
  unfold State.loopForce
  dsimp only
  split <;> trivial

theorem countOk_giveUp {r : ℤ} (h : r = s.aliveCount + 1) :
    CountOk (s.giveUp cfg r) (s.giveUp cfg r).mode :=
  countOk_resumeFailed h

theorem countOk_tryRespawn {w : Worker} {r : ℤ} (h : r = s.aliveCount + 1) :
    CountOk (s.tryRespawn cfg (some w) r) (s.tryRespawn cfg (some w) r).mode := by
  unfold State.tryRespawn
  split
  · exact countOk_resumeFailed h
  · exact ⟨Option.some_ne_none w, h⟩

/-- The end of a worker: whatever the status, `remaining` counts the entries again. -/
theorem countOk_accountForExit {w : Worker} {status : ℕ} {r : ℤ} (h : r = s.aliveCount + 1) :
    CountOk (s.accountForExit cfg (some w) status r) (s.accountForExit cfg (some w) status r).mode := by
  unfold State.accountForExit
  split
  · dsimp only
    split
    · exact countOk_loopRest _
    · exact countOk_tryRespawn h
  · dsimp only
    split
    · split
      · exact countOk_loopRest _
      · rename_i hnone
        exact Nat.eq_zero_of_not_pos hnone
    · split
      · exact countOk_tryRespawn h
      · exact countOk_resumeFailed h

/-- The end of another child that ends supervision. -/
theorem countOk_endsSupervision {status : ℕ} {r : ℤ} (h : EndsSupervision status) :
    CountOk (s.accountForExit cfg none status r) (s.accountForExit cfg none status r).mode := by
  unfold EndsSupervision at h
  unfold State.accountForExit
  split
  · rename_i hsignaled
    rw [if_pos hsignaled] at h
    dsimp only
    rw [if_pos h]
    exact countOk_loopRest _
  · rename_i hexited
    rw [if_neg hexited] at h
    dsimp only
    rw [if_pos h]
    split
    · exact countOk_loopRest _
    · rename_i hnone
      exact Nat.eq_zero_of_not_pos hnone

theorem countOk_runMode {now : ℤ} (h : s.runMode cfg now = some s') (hcount : CountOk s s.mode) :
    CountOk s' s'.mode := by
  unfold State.runMode at h
  split at h
  · split at h
    · obtain rfl := Option.some.inj h
      exact countOk_enter rfl
    · split at h
      · obtain rfl := Option.some.inj h
        exact countOk_enter rfl
      · obtain rfl := Option.some.inj h
        trivial
  · rename_i dead status r hmode
    obtain rfl := Option.some.inj h
    rw [hmode] at hcount
    cases dead with
    | none => exact countOk_endsSupervision hcount
    | some w => exact countOk_accountForExit hcount
  · rename_i dead r hmode
    obtain rfl := Option.some.inj h
    rw [hmode] at hcount
    unfold State.countRespawns
    dsimp only
    split
    · exact countOk_giveUp hcount.2
    · exact hcount
  · rename_i dead r hmode
    obtain rfl := Option.some.inj h
    rw [hmode] at hcount
    unfold State.countRapidCrash
    split
    · dsimp only
      split
      · exact countOk_giveUp hcount.2
      · exact hcount
    · exact hcount
  · split at h
    · obtain rfl := Option.some.inj h
      exact countOk_enter rfl
    · split at h
      · obtain rfl := Option.some.inj h
        trivial
      · cases h
  · cases h

theorem countOk_run {now : ℤ} (h : s.run cfg now = some s') (hcount : CountOk s s.mode) :
    CountOk s' s'.mode := by
  unfold State.run at h
  split at h
  · obtain rfl := Option.some.inj h
    exact countOk_congr rfl hcount
  · split at h
    · obtain rfl := Option.some.inj h
      unfold State.checkStop
      dsimp only
      split
      · exact countOk_congr rfl hcount
      · exact countOk_congr rfl hcount
    · split at h
      · obtain rfl := Option.some.inj h
        unfold State.killOne
        dsimp only
        split
        · exact countOk_congr rfl hcount
        · exact countOk_congr rfl hcount
      · exact countOk_runMode h hcount

theorem aliveCount_set_vacant {pids : List ℤ} {i : ℕ} {p : ℤ} (hi : pids[i]? = some p) (hp : 0 < p) :
    pids.countP (0 < ·) = (pids.set i (-1)).countP (0 < ·) + 1 := by
  obtain ⟨hlt, hentry⟩ := List.getElem?_eq_some_iff.mp hi
  have hpos : 0 < pids.countP (0 < ·) :=
    List.countP_pos_iff.mpr ⟨p, List.mem_of_getElem? hi, decide_eq_true hp⟩
  rw [List.countP_set hlt, hentry, if_pos (decide_eq_true hp), if_neg (by decide)]
  omega

theorem aliveCount_set_filled {pids : List ℤ} {i : ℕ} {p q : ℤ} (hi : pids[i]? = some p) (hp : p ≤ 0)
    (hq : 0 < q) : (pids.set i q).countP (0 < ·) = pids.countP (0 < ·) + 1 := by
  obtain ⟨hlt, hentry⟩ := List.getElem?_eq_some_iff.mp hi
  have hvacant : ¬ decide (0 < pids[i]) = true := by
    rw [hentry, decide_eq_true_iff]
    omega
  rw [List.countP_set hlt, if_neg hvacant, if_pos (decide_eq_true hq), Nat.sub_zero]

theorem countOk_reaped (h : Sound cfg s) {pid : ℤ} {status : ℕ}
    (hr : s.reaped cfg pid status = some s') (hown : ReapsOwn s (.reaped pid status))
    (hcount : CountOk s s.mode) : CountOk s' s'.mode := by
  obtain ⟨dead, hwaited, hcases⟩ := reaped_eq hr
  rcases hcases with ⟨r, hmode, rfl⟩ | ⟨-, rfl⟩ | ⟨-, rfl⟩ | ⟨-, rfl⟩
  · have hremaining : r = s.aliveCount := by
      rcases hmode with hmode | hmode <;> rw [hmode] at hcount <;> exact hcount
    have hsupervising : s.mode.supervising := by
      rcases hmode with hmode | hmode <;> rw [hmode] <;> rfl
    rcases waited_cases hwaited with ⟨w, hmem, rfl, rfl, hexited⟩ | ⟨rfl, hpos, hother⟩
    · have hlive : w.Live := Worker.live_of_exited hexited
      obtain ⟨i, -, hentry, heq⟩ := removed_worker cfg h.table hmem hlive
      rw [heq]
      have hone := aliveCount_set_vacant hentry (h.table.named w hmem hlive).1
      show r = ((s.childPids.set i (-1)).countP (0 < ·) : ℤ) + 1
      rw [hremaining, State.aliveCount, hone]
      rfl
    · refine (hown hsupervising).resolve_left fun hin => ?_
      obtain ⟨i, hi⟩ := List.mem_iff_getElem?.mp hin
      obtain ⟨w, hw, hlive, hwp, -⟩ := h.table.held i pid hi hpos
      exact hother w hw hlive hwp
  · exact countOk_loopRest _
  · exact countOk_loopDrain _
  · exact countOk_loopForce _

theorem countOk_forked (h : Sound cfg s) {pid now : ℤ} (hf : s.forked cfg pid now = some s')
    (hcount : CountOk s s.mode) : CountOk s' s'.mode ∧ RespawnOk s s' (.forked pid now) := by
  obtain ⟨hpos, -, ⟨i, hm, rfl⟩ | ⟨dead, r, hm, rfl⟩ | ⟨i, p, hm, -, -, rfl⟩⟩ := forked_cases hf
  · refine ⟨trivial, fun dead r hmode => ?_⟩
    rw [hm] at hmode
    cases hmode
  · rw [hm] at hcount
    obtain ⟨hdead, hremaining⟩ := hcount
    cases dead with
    | none => exact absurd rfl hdead
    | some w =>
      have hpoint := h.point
      rw [hm] at hpoint
      obtain ⟨i, -, hentry, heq⟩ := placeRespawn_freed cfg hpoint pid now r
      rw [heq]
      refine ⟨countOk_resumeParent ?_, fun dead' r' hmode => ?_⟩
      · have hone := aliveCount_set_filled hentry (by decide) hpos
        show r = ((s.childPids.set i pid).countP (0 < ·) : ℤ)
        rw [hone, hremaining]
        rfl
      · rw [hm] at hmode
        cases hmode
        exact ⟨w, rfl, rfl⟩
  · refine ⟨trivial, fun dead r hmode => ?_⟩
    rw [hm] at hmode
    cases hmode

theorem countOk_forkRaised {now : ℤ} (h : s.forkRaised now = some s') : CountOk s' s'.mode := by
  unfold State.forkRaised at h
  split at h
  · obtain rfl := Option.some.inj h
    trivial
  · obtain rfl := Option.some.inj h
    trivial
  · split at h
    · obtain rfl := Option.some.inj h
      trivial
    · cases h
  · cases h

theorem countOk_noChild (hs : Sound cfg s) (h : s.noChild = some s') : CountOk s' s'.mode := by
  unfold State.noChild at h
  split at h
  · rename_i hreaped
    split at h
    · obtain rfl := Option.some.inj h
      exact hs.table.vacant_of_reaped hreaped
    · obtain rfl := Option.some.inj h
      trivial
    · obtain rfl := Option.some.inj h
      trivial
    · obtain rfl := Option.some.inj h
      trivial
    · obtain rfl := Option.some.inj h
      trivial
    · cases h
  · cases h

theorem countOk_noneExited (h : s.noneExited = some s') (hcount : CountOk s s.mode) :
    CountOk s' s'.mode := by
  unfold State.noneExited at h
  split at h
  · rename_i r hmode
    obtain rfl := Option.some.inj h
    rw [hmode] at hcount
    have hremaining : r = s.aliveCount := hcount
    dsimp only
    split
    · show s.aliveCount = 0
      omega
    · exact hremaining
  · rename_i hmode
    obtain rfl := Option.some.inj h
    exact hcount
  · cases h

theorem countOk_drainOver (h : s.drainOver = some s') : CountOk s' s'.mode := by
  unfold State.drainOver at h
  split at h
  · obtain rfl := Option.some.inj h
    exact countOk_loopForce _
  · cases h

theorem countOk_scanned {changed : Bool} (h : s.scanned changed = some s')
    (hcount : CountOk s s.mode) : CountOk s' s'.mode := by
  unfold State.scanned at h
  split at h
  · rename_i r hmode
    rw [hmode] at hcount
    have hremaining : r = s.aliveCount := hcount
    split at h
    · obtain rfl := Option.some.inj h
      exact countOk_loopDrain _
    · obtain rfl := Option.some.inj h
      dsimp only
      split
      · exact hremaining
      · show s.aliveCount = 0
        omega
  · cases h

/-! ## Every step -/

structure Counted (cfg : Config) (s : State) : Prop where
  sound : Sound cfg s
  count : CountOk s s.mode

/-- Where the count is right a respawn has a dead worker to answer. -/
theorem Counted.answers (h : Counted cfg s) (a : Act) : Answers s a := by
  cases a with
  | forked pid now =>
    have hcount := h.count
    show s.mode.respawnsOther = false
    cases hm : s.mode with
    | respawn dead r =>
      rw [hm] at hcount
      cases dead with
      | none => exact absurd rfl hcount.1
      | some w => rfl
    | _ => rfl
  | _ => trivial

/-- **One step keeps the count**, if it reaps no other child whose end the loop goes on from. -/
theorem Counted.step (h : Counted cfg s) {a : Act} (hn : s.next cfg a = some s') (ha : ReapsOwn s a) :
    Counted cfg s' ∧ RespawnOk s s' a := by
  have hsound : Sound cfg s' := h.sound.step hn (h.answers a)
  obtain ⟨now, rfl, hrun⟩ | ⟨sig, rfl, -, rfl⟩ | ⟨pid, status, rfl, rfl⟩ | ⟨-, hcall⟩ := next_call hn
  · exact ⟨⟨hsound, countOk_run hrun h.count⟩, trivial⟩
  · refine ⟨⟨hsound, ?_⟩, trivial⟩
    unfold State.onSupervisorSignal
    dsimp only
    split
    · exact countOk_congr rfl h.count
    · exact countOk_congr rfl h.count
  · exact ⟨⟨hsound, countOk_congr rfl h.count⟩, trivial⟩
  · cases a with
    | forked pid now =>
      obtain ⟨hcount, hrespawn⟩ := countOk_forked h.sound hcall h.count
      exact ⟨⟨hsound, hcount⟩, hrespawn⟩
    | forkRaised now => exact ⟨⟨hsound, countOk_forkRaised hcall⟩, trivial⟩
    | reaped pid status => exact ⟨⟨hsound, countOk_reaped h.sound hcall ha h.count⟩, trivial⟩
    | noChild => exact ⟨⟨hsound, countOk_noChild h.sound hcall⟩, trivial⟩
    | noneExited => exact ⟨⟨hsound, countOk_noneExited hcall h.count⟩, trivial⟩
    | drainOver => exact ⟨⟨hsound, countOk_drainOver hcall⟩, trivial⟩
    | scanned changed => exact ⟨⟨hsound, countOk_scanned hcall h.count⟩, trivial⟩
    | _ => cases hcall

theorem Counted.kept (h : Counted cfg s) : Kept s where
  one := h.sound.table.one_of_index
  named w hw hlive := (h.sound.table.named w hw hlive).2
  returned hmode := by
    have hcount := h.count
    rw [hmode] at hcount
    exact h.sound.table.reaped_of_vacant hcount

/-- In every execution whose loops reap no other child but one that ends supervision, the count is
right at every instant. -/
theorem counted_of_execution (e : (supervision cfg).Execution)
    (h : ∀ k a, e.labels[k]? = some a → ReapsOwn (e.state k) a) :
    ∀ k ≤ e.labels.length, Counted cfg (e.state k) := by
  intro k hk
  refine e.stays (P := Counted cfg) (Nat.zero_le k) hk ?_ ?_
  · rw [e.start]
    exact ⟨sound_armed cfg, trivial⟩
  · exact fun j a _ _ ha hcounted => (hcounted.step (e.steps ha) (h j a ha)).1

/-- **The supervisor keeps exactly the workers it names**, in every execution whose loops reap no
other child but one whose status ends supervision. -/
theorem keepsWorkers_of_execution (cfg : Config) (e : (supervision cfg).Execution)
    (h : ∀ k a, e.labels[k]? = some a → ReapsOwn (e.state k) a) : KeepsWorkers e where
  kept k hk := (counted_of_execution e h k hk).kept
  respawns k a ha :=
    ((counted_of_execution e h k (Nat.le_of_lt (LabelledSystem.Execution.lt_length ha))).step (e.steps ha)
      (h k a ha)).2

/-! ## One worker -/

def oneWorker : Config := ⟨1, 1, 10, respawnWindowNs, false⟩

/-- The worker is forked and published, and the parent waits. -/
def forkOne : List Act :=
  [.run 0, .forked 100 0, .run 0, .run 0, .run 0, .run 0, .run 0]

/-- The worker crashes and is respawned, and its replacement retires. -/
def crashAndRetire : List Act :=
  forkOne ++ [Act.exited 100 256, .reaped 100 256, .run 0, .run 0, .run 0, .run 0, .run 2000000000,
    .run 2000000000, .forked 101 2000000000, .run 0, .run 0, .run 0, .run 0, .exited 101 0,
    .reaped 101 0, .run 0, .run 0, .run 0, .run 0]

theorem crashAndRetire_run : ((supervision oneWorker).run (.armed oneWorker) crashAndRetire).isSome := by
  decide

theorem keepsWorkers_crashAndRetire :
    KeepsWorkers (.ofRun (supervision oneWorker) crashAndRetire crashAndRetire_run) := by
  have hown : ∀ k < 26, ∀ a ∈ crashAndRetire[k]?, ReapsOwn
      (((supervision oneWorker).run (.armed oneWorker) (crashAndRetire.take k)).getD
        (.armed oneWorker)) a := by
    decide
  refine keepsWorkers_of_execution oneWorker _ fun k a ha => hown k ?_ a ha
  exact LabelledSystem.Execution.lt_length ha

/-- An orphan that the supervisor was given exits with 0, while the worker runs. -/
def orphanExits : List Act := forkOne ++ [Act.reaped 50 0, .run 0]

theorem orphanExits_run : ((supervision oneWorker).run (.armed oneWorker) orphanExits).isSome := by
  decide

/-- **An orphan's clean exit ends the loop over a worker that runs.** -/
theorem orphanExits_not_keepsWorkers :
    ¬ ∀ cfg, ∀ e : (supervision cfg).Execution, KeepsWorkers e := by
  intro h
  let e : (supervision oneWorker).Execution := .ofRun _ orphanExits orphanExits_run
  have hkept : Kept (e.state 9) := (h oneWorker e).kept 9 (by decide)
  have hreturned : (e.state 9).mode = .returned := by decide
  have hrunning : (⟨100, 0, false, [], .running⟩ : Worker) ∈ (e.state 9).workers := by decide
  exact absurd (hkept.returned hreturned _ hrunning) (by decide)

end MojoHttp.Supervisor
