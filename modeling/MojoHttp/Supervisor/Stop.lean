import MojoHttp.Supervisor.Steps

/-!
# A stop is passed on

The handler records the stop, then reads the published PIDs; the parent publishes a PID, then reads
the stop. So a worker whose PID the handler could not read is one the parent is about to signal
itself, or one that was forked with the stop on record.

* **`StopLost`** — the parent waits, with nothing left to send, for a worker that was never told.
* **`Passing`** — what carries the stop, wherever the parent is.
* **`Passing.step`**, **`stopPassed_of_execution`** — no stop is lost among the workers the block has
  room for.
* **`sixtyFive_not_stopPassed`** — the sixty-fifth worker is not signalled.
-/

namespace MojoHttp.Supervisor

variable {cfg : Config} {s s' : State}

/-! ## What is claimed -/

/-- The parent is at a `waitpid`. -/
def Mode.waits : Mode → Bool
  | .supervise _ | .supervisePolling _ | .reapTheRest | .drain | .force => true
  | _ => false

/-- A stop is on record, the parent waits with no further signal to send, and a worker runs that was
neither sent the signal nor forked after the stop was recorded. -/
structure StopLost (s : State) : Prop where
  recorded : s.stop ≠ 0
  waits : s.mode.waits
  idle : s.Idle
  worker : ∃ w ∈ s.workers, w.phase = .running ∧ w.told = false ∧ s.stop ∉ w.sent

/-- A fork, once the parent has read the stop, is one of a reload. -/
def ForkOk (s : State) : Act → Prop
  | .forked .. => s.observed → ∃ i, s.mode = .refork i
  | _ => True

structure StopPassed (e : (supervision cfg).Execution) : Prop where
  kept : ∀ k ≤ e.labels.length, ¬ StopLost (e.state k)
  forks : ∀ k a, e.labels[k]? = some a → ForkOk (e.state k) a

/-! ## What carries the stop -/

structure Passing (cfg : Config) (s : State) : Prop where
  owner : s.block.owner = cfg.pid
  size : s.block.slots.length = maxTrackedChildren
  writes : ∀ w ∈ s.writes, WriteOk cfg.pid s.childPids w
  settled : s.mode.settles → Current s.childPids (s.writes.foldl Block.exec s.block)
  checking : s.check → s.mode.forks = false
  shown : s.mode.settles → s.check = false → ∀ w ∈ s.workers, w.phase = .running →
    ∃ i : ℕ, w.index = i ∧ Shows s.block i w.pid
  told : s.mode.settles → s.check = false → s.stop ≠ 0 → ∀ w ∈ s.workers, w.phase = .running →
    w.told ∨ s.stop ∈ w.sent ∨ (s.killSig = s.stop ∧ ∃ i ∈ s.kills, w.index = i)
  observed : s.observed → s.stop ≠ 0 ∧ s.mode.forks = false

theorem passing_armed (cfg : Config) : Passing cfg (.armed cfg) where
  owner := rfl
  size := rfl
  writes _ h := nomatch h
  settled _ := ⟨rfl, fun i hi => absurd hi (Nat.not_lt_zero i)⟩
  checking h := nomatch h
  shown _ _ _ h := nomatch h
  told _ _ h := absurd rfl h
  observed h := nomatch h

/-- A worker that runs has an entry, and the block has room for its index. -/
theorem Sound.entry (h : Sound cfg s) (hroom : cfg.numWorkers ≤ maxTrackedChildren) {w : Worker}
    (hw : w ∈ s.workers) (hrunning : w.phase = .running) : 0 < w.pid ∧ ∃ i : ℕ, w.index = i ∧
      s.childPids[i]? = some w.pid ∧ i < s.childPids.length ∧ i < maxTrackedChildren := by
  have hlive : w.Live := Worker.live_of_running hrunning
  obtain ⟨hpos, i, hi, hentry⟩ := h.table.named w hw hlive
  have hlt : i < s.childPids.length := (List.getElem?_eq_some_iff.mp hentry).1
  exact ⟨hpos, i, hi, hentry, hlt, by have := h.size; omega⟩

/-! ### Steps of the parent -/

/-- From a point to a point, with no read and no `kill` left to do. -/
theorem Passing.of_moves (h : Passing cfg s) (hm : Moves cfg s s') (hcheck : s.check = false)
    (hkills : s.kills = []) : Passing cfg s' where
  owner := by rw [hm.same.block]; exact h.owner
  size := by rw [hm.same.block]; exact h.size
  writes := by rw [hm.same.writes, hm.same.childPids]; exact h.writes
  settled hs := by
    rw [hm.same.writes, hm.same.childPids, hm.same.block]
    exact h.settled (hm.settles hs)
  checking hc := by
    rw [hm.same.check, hcheck] at hc
    cases hc
  shown hs hc := by
    rw [hm.same.workers, hm.same.block]
    exact h.shown (hm.settles hs) hcheck
  told hs hc hstop w hw hrunning := by
    rw [hm.same.stop] at hstop ⊢
    rw [hm.same.workers] at hw
    rcases h.told (hm.settles hs) hcheck hstop w hw hrunning with htold | hsent | hkill
    · exact Or.inl htold
    · exact Or.inr (Or.inl hsent)
    · obtain ⟨-, i, hi, -⟩ := hkill
      rw [hkills] at hi
      cases hi
  observed ho := by
    rw [hm.same.stop]
    rcases hm.observed ho with hbefore | hnow
    · obtain ⟨hstop, hforks⟩ := h.observed hbefore
      refine ⟨hstop, ?_⟩
      by_contra hf
      rcases hm.forks (Bool.not_eq_false _ ▸ hf) with hf | hzero
      · rw [hforks] at hf
        cases hf
      · exact hstop hzero
    · exact hnow

/-- A publish begins, with the read of the stop behind it. -/
theorem Passing.of_publish (h : Passing cfg s) (hblock : s'.block = s.block)
    (hwrites : s'.writes = publishChildPids cfg.pid s.block.count s'.childPids)
    (hcheck : s'.check = true) (hrests : s'.mode.forks = false)
    (hobserved : s'.observed → s'.stop ≠ 0) : Passing cfg s' where
  owner := by rw [hblock]; exact h.owner
  size := by rw [hblock]; exact h.size
  writes := by rw [hwrites]; exact writeOk_publish _ _ _
  settled _ := by rw [hwrites, hblock]; exact current_of_publish cfg.pid _ h.size
  checking _ := hrests
  shown _ hc := by rw [hcheck] at hc; cases hc
  told _ hc := by rw [hcheck] at hc; cases hc
  observed ho := ⟨hobserved ho, hrests⟩

/-- One store of a publish. -/
theorem Passing.write (h : Passing cfg s) (hs : Sound cfg s) (hroom : cfg.numWorkers ≤ maxTrackedChildren)
    {w : Write} {writes : List Write} (hw : s.writes = w :: writes) :
    Passing cfg { s with block := s.block.exec w, writes } := by
  have hok : WriteOk cfg.pid s.childPids w := h.writes w (by rw [hw]; exact List.mem_cons_self)
  refine ⟨exec_owner hok h.owner, (exec_slots_length _ w).trans h.size, fun v hv => ?_, fun hm => ?_,
    h.checking, fun hm hc v hv hrunning => ?_, h.told, h.observed⟩
  · exact h.writes v (by rw [hw]; exact List.mem_cons_of_mem _ hv)
  · have hsettled := h.settled hm
    rw [hw] at hsettled
    exact hsettled
  · obtain ⟨i, hi, hshows⟩ := h.shown hm hc v hv hrunning
    obtain ⟨hpos, j, hj, hentry, -⟩ := hs.entry hroom hv hrunning
    have hij : i = j := by omega
    exact ⟨i, hi, hshows.exec hok (hij ▸ hentry) hpos⟩

/-- **The read of the stop behind a publish**: every worker is published, or about to be signalled. -/
theorem Passing.checkStop (h : Passing cfg s) (hs : Sound cfg s)
    (hroom : cfg.numWorkers ≤ maxTrackedChildren) (hw : s.writes = []) (hc : s.check) :
    Passing cfg s.checkStop := by
  have hforks := h.checking hc
  have hshown : s.mode.settles → ∀ w ∈ s.workers, w.phase = .running →
      ∃ i : ℕ, w.index = i ∧ Shows s.block i w.pid := by
    intro hm w hmem hrunning
    have hcurrent := h.settled hm
    rw [hw] at hcurrent
    obtain ⟨hpos, i, hi, hentry, -, htracked⟩ := hs.entry hroom hmem hrunning
    exact ⟨i, hi, hcurrent.shows hentry hpos htracked⟩
  unfold State.checkStop
  dsimp only
  split
  · rename_i hstop
    refine ⟨h.owner, h.size, h.writes, h.settled, Bool.noConfusion, fun hm _ => hshown hm, ?_,
      fun _ => ⟨hstop, hforks⟩⟩
    intro _ _ _ w hmem hrunning
    obtain ⟨-, i, hi, -, hlt, -⟩ := hs.entry hroom hmem hrunning
    exact Or.inr (Or.inr ⟨rfl, i, List.mem_range.mpr hlt, hi⟩)
  · rename_i hzero
    exact ⟨h.owner, h.size, h.writes, h.settled, Bool.noConfusion, fun hm _ => hshown hm,
      fun _ _ hstop => absurd hstop hzero, h.observed⟩

/-- What has happened to a worker that still runs, as its parent sees it. -/
theorem Passing.of_map (h : Passing cfg s) {f : Worker → Worker}
    (hf : ∀ w ∈ s.workers, (f w).phase = .running →
      w.phase = .running ∧ (f w).pid = w.pid ∧ (f w).index = w.index ∧ (f w).told = w.told ∧
        ∀ sent ∈ w.sent, sent ∈ (f w).sent) :
    Passing cfg { s with workers := s.workers.map f } := by
  refine ⟨h.owner, h.size, h.writes, h.settled, h.checking, ?_, ?_, h.observed⟩
  · intro hm hc v hv hrunning
    obtain ⟨w, hw, rfl⟩ := List.mem_map.mp hv
    obtain ⟨hwr, hpid, hindex, -, -⟩ := hf w hw hrunning
    rw [hpid, hindex]
    exact h.shown hm hc w hw hwr
  · intro hm hc hstop v hv hrunning
    obtain ⟨w, hw, rfl⟩ := List.mem_map.mp hv
    obtain ⟨hwr, -, hindex, htold, hsent⟩ := hf w hw hrunning
    rw [htold, hindex]
    exact (h.told hm hc hstop w hw hwr).imp_right (Or.imp_left (hsent _))

/-- One `kill` of a `_kill_all`. -/
theorem Passing.killOne (h : Passing cfg s) (hs : Sound cfg s)
    (hroom : cfg.numWorkers ≤ maxTrackedChildren) {i : ℕ} {kills : List ℕ}
    (hkills : s.kills = i :: kills) : Passing cfg ({ s with kills }.killOne i) := by
  have hkilled : ∀ v ∈ ({ s with kills }.killOne i).workers, v.phase = .running →
      ∃ w ∈ s.workers, w.phase = .running ∧ v.pid = w.pid ∧ v.index = w.index ∧ v.told = w.told ∧
        (∀ sent ∈ w.sent, sent ∈ v.sent) ∧ (w.index = i → s.killSig ∈ v.sent) := by
    intro v hv hrunning
    unfold State.killOne at hv
    dsimp only at hv
    split at hv
    · obtain ⟨w, hw, rfl⟩ := List.mem_map.mp hv
      rw [Worker.kill_phase] at hrunning
      refine ⟨w, hw, hrunning, Worker.kill_pid .., Worker.kill_index .., Worker.kill_told ..,
        fun _ h => kill_sent _ _ h, fun hwi => ?_⟩
      obtain ⟨-, j, hj, hentry, -⟩ := hs.entry hroom hw hrunning
      have hji : j = i := by omega
      have hpid : s.childPids.getD i 0 = w.pid := by
        rw [List.getD_eq_getElem?_getD, ← hji, hentry]
        rfl
      rw [hpid]
      exact kill_sent_self _ hrunning
    · rename_i hvacant
      refine ⟨v, hv, hrunning, rfl, rfl, rfl, fun _ h => h, fun hvi => ?_⟩
      obtain ⟨hpos, j, hj, hentry, -⟩ := hs.entry hroom hv hrunning
      have hji : j = i := by omega
      rw [List.getD_eq_getElem?_getD, ← hji, hentry] at hvacant
      exact absurd hpos hvacant
  have hrest : ∃ workers, { s with kills }.killOne i = { s with kills, workers } := by
    unfold State.killOne
    dsimp only
    split
    · exact ⟨_, rfl⟩
    · exact ⟨_, rfl⟩
  obtain ⟨workers, heq⟩ := hrest
  rw [heq] at hkilled ⊢
  refine ⟨h.owner, h.size, h.writes, h.settled, h.checking, ?_, ?_, h.observed⟩
  · intro hm hc v hv hrunning
    obtain ⟨w, hw, hwr, hpid, hindex, -⟩ := hkilled v hv hrunning
    rw [hpid, hindex]
    exact h.shown hm hc w hw hwr
  · intro hm hc hstop v hv hrunning
    obtain ⟨w, hw, hwr, -, hindex, htold, hsent, hself⟩ := hkilled v hv hrunning
    rw [htold, hindex]
    rcases h.told hm hc hstop w hw hwr with ht | ht | ⟨hsig, j, hj, hji⟩
    · exact Or.inl ht
    · exact Or.inr (Or.inl (hsent _ ht))
    · rw [hkills] at hj
      rcases List.mem_cons.mp hj with rfl | hj
      · exact Or.inr (Or.inl (hsig ▸ hself hji))
      · exact Or.inr (Or.inr ⟨hsig, j, hj, hji⟩)

/-- **The parent's own accesses.** -/
theorem Passing.run (h : Passing cfg s) (hs : Sound cfg s)
    (hroom : cfg.numWorkers ≤ maxTrackedChildren) {now : ℤ} (hrun : s.run cfg now = some s') :
    Passing cfg s' := by
  unfold State.run at hrun
  split at hrun
  · rename_i w writes hw
    obtain rfl := Option.some.inj hrun
    exact h.write hs hroom hw
  · rename_i hw
    split at hrun
    · rename_i hc
      obtain rfl := Option.some.inj hrun
      exact h.checkStop hs hroom hw hc
    · rename_i hc
      split at hrun
      · rename_i i kills hkills
        obtain rfl := Option.some.inj hrun
        exact h.killOne hs hroom hkills
      · rename_i hkills
        rcases moves_runMode hrun hs.point with hmoves | ⟨-, rfl⟩
        · exact h.of_moves hmoves (Bool.not_eq_true _ ▸ hc) hkills
        · exact h.of_publish rfl rfl rfl (not_forks_of_rests (rests_enter cfg _))
            fun ho => (h.observed ho).1

/-! ### The signal, and the end of a worker -/

/-- **The handler**: it reaches every worker that no read of the stop is to come for. -/
theorem Passing.onSupervisorSignal (h : Passing cfg s) (hs : Sound cfg s)
    (hroom : cfg.numWorkers ≤ maxTrackedChildren) {sig : ℕ} (hsig : sig ≠ 0) :
    Passing cfg (s.onSupervisorSignal cfg sig) := by
  rw [onSupervisorSignal_eq sig h.owner]
  refine ⟨h.owner, h.size, h.writes, h.settled, h.checking, ?_, ?_, fun ho => ⟨hsig, (h.observed ho).2⟩⟩
  · intro hm hc v hv hrunning
    obtain ⟨w, hw, rfl⟩ := List.mem_map.mp hv
    obtain ⟨hpid, hindex, -, hphase, -⟩ := signalled_eq s.block sig (List.range s.block.count) w
    rw [hphase] at hrunning
    rw [hpid, hindex]
    exact h.shown hm hc w hw hrunning
  · intro hm hc _ v hv hrunning
    obtain ⟨w, hw, rfl⟩ := List.mem_map.mp hv
    obtain ⟨-, -, -, hphase, -⟩ := signalled_eq s.block sig (List.range s.block.count) w
    rw [hphase] at hrunning
    obtain ⟨i, -, hshows⟩ := h.shown hm hc w hw hrunning
    obtain ⟨hpos, -⟩ := hs.entry hroom hw hrunning
    exact Or.inr (Or.inl (sent_of_shows sig hshows hpos (List.mem_range.mpr hshows.1) hrunning))

theorem Passing.exited (h : Passing cfg s) (pid : ℤ) (status : ℕ) :
    Passing cfg { s with workers := s.workers.map (Worker.exit pid status) } := by
  refine h.of_map fun w _ hrunning => ?_
  have hsame : w.exit pid status = w := by
    unfold Worker.exit at hrunning ⊢
    split
    · rename_i hexits
      rw [if_pos hexits] at hrunning
      cases hrunning
    · rfl
  rw [hsame] at hrunning ⊢
  exact ⟨hrunning, rfl, rfl, rfl, fun _ h => h⟩

/-! ### The answers of `waitpid` and `fork` -/

theorem Passing.reaped (h : Passing cfg s) (hs : Sound cfg s) (hidle : s.Idle) {pid : ℤ} {status : ℕ}
    (hr : s.reaped cfg pid status = some s') : Passing cfg s' := by
  obtain ⟨hwrites, hcheck, hkills⟩ := hidle
  obtain ⟨dead, hwaited, hcases⟩ := reaped_eq hr
  have hsettles : s.mode.settles := by
    rcases hcases with ⟨r, hm | hm, -⟩ | ⟨hm, -⟩ | ⟨hm, -⟩ | ⟨hm, -⟩ <;> rw [hm] <;> rfl
  have hsame : ∀ t : State, Passing cfg t → t.check = false → t.kills = [] → t.mode = s.mode →
      t = s.removed cfg pid → Passing cfg s' := by
    intro t ht hc hk hmode heq
    have hts : t.mode.settles := hmode ▸ hsettles
    have hpoint : PointOk cfg s' s'.mode := (hs.reaped hr).point
    rcases hcases with ⟨r, -, rfl⟩ | ⟨-, rfl⟩ | ⟨-, rfl⟩ | ⟨-, rfl⟩ <;> rw [← heq] at hpoint ⊢
    · exact ht.of_moves ⟨⟨rfl, rfl, rfl, rfl, rfl, rfl⟩, fun _ => hpoint, fun _ => hts, Bool.noConfusion, Or.inl⟩
        hc hk
    · obtain ⟨refused, failed, hj⟩ := judgeStopped_eq t status
      rw [hj]
      exact ht.of_moves (.of_rests ⟨rfl, rfl, rfl, rfl, rfl, rfl⟩ (rests_loopRest _) hts Or.inl) hc hk
    · exact ht.of_moves (.of_rests ⟨rfl, rfl, rfl, rfl, rfl, rfl⟩ (rests_loopDrain _) hts Or.inl) hc hk
    · exact ht.of_moves (.of_rests ⟨rfl, rfl, rfl, rfl, rfl, rfl⟩ (rests_loopForce _) hts Or.inl) hc hk
  rcases waited_cases hwaited with ⟨w, hmem, -, rfl, hexited⟩ | ⟨-, hpos, hother⟩
  · have hlive : w.Live := Worker.live_of_exited hexited
    obtain ⟨i, -, -, heq⟩ := removed_worker cfg hs.table hmem hlive
    have hmap := h.of_map (f := Worker.reap w.pid) fun v _ hrunning => by
      have hsame : v.reap w.pid = v := (Worker.reap_live (Worker.live_of_running hrunning)).1
      rw [hsame] at hrunning ⊢
      exact ⟨hrunning, rfl, rfl, rfl, fun _ h => h⟩
    -- the entry is cleared, and the publish of the table without it begins
    have hremoved : Passing cfg (s.removed cfg w.pid) := by
      rw [heq]
      exact ⟨hmap.owner, hmap.size, writeOk_publish _ _ _, fun _ => current_of_publish cfg.pid _ h.size,
        hmap.checking, hmap.shown, hmap.told, hmap.observed⟩
    exact hsame _ hremoved (by rw [heq]; exact hcheck) (by rw [heq]; exact hkills) (by rw [heq]) rfl
  · exact hsame s h hcheck hkills rfl (removed_other hs.table hpos hother).symm

theorem Passing.forked (h : Passing cfg s) (hs : Sound cfg s) (hidle : s.Idle) {pid now : ℤ}
    (hf : s.forked cfg pid now = some s') (hanswers : Answers s (.forked pid now)) :
    Passing cfg s' := by
  obtain ⟨hwrites, hcheck, hkills⟩ := hidle
  obtain ⟨-, -, ⟨i, hm, rfl⟩ | ⟨dead, r, hm, rfl⟩ | ⟨i, p, hm, -, -, rfl⟩⟩ := forked_cases hf
  · exact h.of_publish rfl rfl rfl rfl fun ho => (h.observed ho).1
  · cases dead with
    | none =>
      rw [Answers, hm] at hanswers
      cases hanswers
    | some w =>
      have hpoint := hs.point
      rw [hm] at hpoint
      obtain ⟨i, -, -, heq⟩ := placeRespawn_freed cfg hpoint pid now r
      rw [heq]
      exact h.of_publish rfl rfl rfl (not_forks_of_rests (rests_resumeParent cfg r))
        fun ho => (h.observed ho).1
  · -- a reload publishes once it has forked for every vacant index
    refine ⟨h.owner, h.size, fun w hw => ?_, Bool.noConfusion, fun _ => rfl, Bool.noConfusion,
      Bool.noConfusion,
      fun ho => ⟨(h.observed ho).1, rfl⟩⟩
    have hnone : w ∈ s.writes := hw
    rw [hwrites] at hnone
    cases hnone

/-! ## Every step -/

/-- **One step carries the stop.** -/
theorem Passing.step (h : Passing cfg s) (hs : Sound cfg s)
    (hroom : cfg.numWorkers ≤ maxTrackedChildren) {a : Act} (hn : s.next cfg a = some s')
    (ha : Answers s a) : Passing cfg s' := by
  obtain ⟨now, rfl, hrun⟩ | ⟨sig, rfl, hsig, rfl⟩ | ⟨pid, status, rfl, rfl⟩ | ⟨hidle, hcall⟩ :=
    next_call hn
  · exact h.run hs hroom hrun
  · have hne : sig ≠ 0 := by rcases hsig with rfl | rfl <;> decide
    exact h.onSupervisorSignal hs hroom hne
  · exact h.exited pid status
  · have hcheck := hidle.2.1
    have hkills := hidle.2.2
    cases a with
    | forked pid now => exact h.forked hs hidle hcall ha
    | forkRaised now => exact h.of_moves (moves_forkRaised hcall) hcheck hkills
    | reaped pid status => exact h.reaped hs hidle hcall
    | noChild => exact h.of_moves (moves_noChild hcall) hcheck hkills
    | noneExited => exact h.of_moves (moves_noneExited hcall) hcheck hkills
    | drainOver => exact h.of_moves (moves_drainOver hcall) hcheck hkills
    | scanned changed => exact h.of_moves (moves_scanned hcall) hcheck hkills
    | _ => cases hcall

theorem passing_of_execution (hroom : cfg.numWorkers ≤ maxTrackedChildren)
    (e : (supervision cfg).Execution) (h : Answered e) :
    ∀ k ≤ e.labels.length, Passing cfg (e.state k) := by
  intro k hk
  refine e.stays (P := Passing cfg) (Nat.zero_le k) hk (by rw [e.start]; exact passing_armed cfg) ?_
  intro j a _ hjk ha hpassing
  exact hpassing.step (sound_of_execution e h j (by omega)) hroom (e.steps ha) (h j a ha)

/-- Where the parent waits, the stop has reached every worker. -/
theorem Passing.not_stopLost (h : Passing cfg s) : ¬ StopLost s := by
  rintro ⟨hstop, hwaits, ⟨-, hcheck, hkills⟩, w, hw, hrunning, htold, hsent⟩
  have hsettles : s.mode.settles := by
    cases hm : s.mode <;> rw [hm] at hwaits <;> first | rfl | cases hwaits
  rcases h.told hsettles hcheck hstop w hw hrunning with ht | ht | ⟨-, i, hi, -⟩
  · rw [htold] at ht
    cases ht
  · exact hsent ht
  · rw [hkills] at hi
    cases hi

theorem Passing.forkOk (h : Passing cfg s) {a : Act} (hn : s.next cfg a = some s') : ForkOk s a := by
  cases a with
  | forked pid now =>
    intro ho
    have hforks := (h.observed ho).2
    obtain ⟨now, ha, -⟩ | ⟨sig, ha, -⟩ | ⟨pid, status, ha, -⟩ | ⟨-, hcall⟩ := next_call hn
    · cases ha
    · cases ha
    · cases ha
    · obtain ⟨-, -, ⟨i, hm, -⟩ | ⟨dead, r, hm, -⟩ | ⟨i, p, hm, -⟩⟩ := forked_cases hcall
      · rw [hm] at hforks
        cases hforks
      · rw [hm] at hforks
        cases hforks
      · exact ⟨i, hm⟩
  | _ => trivial

/-- **No stop is lost among as many workers as the block has room for**, and none is forked by
`fork_all` or a respawn once the parent has read it. -/
theorem stopPassed_of_execution (cfg : Config) (hroom : cfg.numWorkers ≤ maxTrackedChildren)
    (e : (supervision cfg).Execution) (h : Answered e) : StopPassed e where
  kept k hk := (passing_of_execution hroom e h k hk).not_stopLost
  forks k _ ha := (passing_of_execution hroom e h k
    (Nat.le_of_lt (LabelledSystem.Execution.lt_length ha))).forkOk (e.steps ha)

/-- The worker is forked, and the stop comes before its PID is published: the handler reaches nobody,
and the parent signals the worker as it reads the stop. -/
def stopWhileForking : List Act :=
  [.run 0, .forked 100 0, .signal sigterm, .run 0, .run 0, .run 0, .run 0, .run 0, .run 0,
    .exited 100 0, .reaped 100 0, .run 0, .run 0, .run 0, .run 0]

def twoWorkers : Config := ⟨1, 2, 20, respawnWindowNs, false⟩

theorem stopWhileForking_run : ((supervision twoWorkers).run (.armed twoWorkers) stopWhileForking).isSome := by
  decide

theorem stopPassed_stopWhileForking :
    StopPassed (.ofRun (supervision twoWorkers) stopWhileForking stopWhileForking_run) := by
  have hanswers : ∀ k < 15, ∀ a ∈ stopWhileForking[k]?, Answers
      (((supervision twoWorkers).run (.armed twoWorkers) (stopWhileForking.take k)).getD
        (.armed twoWorkers)) a := by
    decide
  refine stopPassed_of_execution twoWorkers (by decide) _ fun k a ha => hanswers k ?_ a ha
  exact LabelledSystem.Execution.lt_length ha

/-! ## More workers than the block has room for

`fork_all` forks and publishes one worker after another, undisturbed, and the stop comes as it waits. -/

/-- The PIDs of the first workers. -/
def firstPids (n : ℕ) : List ℤ := (List.range n).map fun i : ℕ => 100 + (i : ℤ)

def firstWorkers (n : ℕ) : List Worker :=
  (List.range n).map fun i : ℕ => ⟨100 + i, i, false, [], .running⟩

/-- The block as the first workers are published one after another. -/
def firstBlock (self : ℤ) : ℕ → Block
  | 0 => .armed self
  | n + 1 => (publishChildPids self (firstBlock self n).count (firstPids (n + 1))).foldl Block.exec
      (firstBlock self n)

/-- `fork_all` at the top of its loop, with the first workers forked. -/
def forkedFirst (cfg : Config) (n : ℕ) : State :=
  { State.armed cfg with
    childPids := firstPids n
    block := firstBlock cfg.pid n
    workers := firstWorkers n
    mode := .forkTest n }

theorem firstPids_succ (n : ℕ) : firstPids (n + 1) = firstPids n ++ [100 + (n : ℤ)] := by
  rw [firstPids, List.range_succ, List.map_append]
  rfl

theorem firstWorkers_succ (n : ℕ) :
    firstWorkers (n + 1) = firstWorkers n ++ [⟨100 + n, n, false, [], .running⟩] := by
  rw [firstWorkers, List.range_succ, List.map_append]
  rfl

theorem firstPids_getElem? {n i : ℕ} (h : i < n) : (firstPids n)[i]? = some (100 + (i : ℤ)) := by
  rw [firstPids, List.getElem?_map, List.getElem?_range h]
  rfl

theorem foldl_exec_length (ws : List Write) (b : Block) :
    (ws.foldl Block.exec b).slots.length = b.slots.length := by
  induction ws generalizing b with
  | nil => rfl
  | cons w ws ih => rw [List.foldl_cons, ih, exec_slots_length]

theorem firstBlock_length (self : ℤ) (n : ℕ) :
    (firstBlock self n).slots.length = maxTrackedChildren := by
  induction n with
  | zero => rfl
  | succ n ih => rw [firstBlock, foldl_exec_length, ih]

theorem firstBlock_current (self : ℤ) (n : ℕ) : Current (firstPids n) (firstBlock self n) := by
  cases n with
  | zero => exact ⟨rfl, fun i hi => absurd hi (Nat.not_lt_zero i)⟩
  | succ n => exact current_of_publish self _ (firstBlock_length self n)

theorem foldl_exec_owner {self : ℤ} {pids : List ℤ} (ws : List Write) {b : Block}
    (hws : ∀ w ∈ ws, WriteOk self pids w) (hb : b.owner = self) :
    (ws.foldl Block.exec b).owner = self := by
  induction ws generalizing b with
  | nil => exact hb
  | cons w ws ih =>
    exact ih (fun v hv => hws v (List.mem_cons_of_mem _ hv))
      (exec_owner (hws w List.mem_cons_self) hb)

theorem firstBlock_owner (self : ℤ) (n : ℕ) : (firstBlock self n).owner = self := by
  induction n with
  | zero => rfl
  | succ n ih => exact foldl_exec_owner _ (writeOk_publish self _ _) ih

/-- The stores of a publish, made one after another with nothing in between. -/
theorem run_writes (cfg : Config) (ws : List Write) (s : State) (h : s.writes = ws) :
    (supervision cfg).run s (List.replicate ws.length (.run 0)) =
      some { s with block := ws.foldl Block.exec s.block, writes := [] } := by
  induction ws generalizing s with
  | nil =>
    have hnone : { s with block := s.block, writes := [] } = s := by rw [← h]
    exact congrArg some hnone.symm
  | cons w ws ih =>
    have hone : (supervision cfg).next s (.run 0) = some { s with block := s.block.exec w, writes := ws } := by
      show s.run cfg 0 = _
      unfold State.run
      rw [h]
    rw [List.length_cons, List.replicate_succ, LabelledSystem.run, hone, Option.bind_some, ih _ rfl]
    rfl

/-- One turn of `fork_all`'s loop. -/
def forkTurn (self : ℤ) (n : ℕ) : List Act :=
  [.run 0, .forked (100 + n) 0]
    ++ List.replicate (publishChildPids self (firstBlock self n).count (firstPids (n + 1))).length (.run 0)
    ++ [Act.run 0]

theorem run_forkTurn {n : ℕ} (h : n < cfg.numWorkers) :
    (supervision cfg).run (forkedFirst cfg n) (forkTurn cfg.pid n) = some (forkedFirst cfg (n + 1)) := by
  have htest : (supervision cfg).next (forkedFirst cfg n) (.run 0) =
      some { forkedFirst cfg n with mode := .forking n } := by
    show (if cfg.numWorkers ≤ n then _ else _) = _
    rw [if_neg (by omega)]
    rfl
  have hfresh : ∀ w ∈ firstWorkers n, w.Live → w.pid ≠ 100 + (n : ℤ) := by
    intro w hw _
    obtain ⟨i, hi, rfl⟩ := List.mem_map.mp hw
    have hlt := List.mem_range.mp hi
    show 100 + (i : ℤ) ≠ 100 + n
    omega
  have hfork : (supervision cfg).next { forkedFirst cfg n with mode := .forking n }
      (.forked (100 + n) 0) = some { forkedFirst cfg (n + 1) with
        block := firstBlock cfg.pid n
        writes := publishChildPids cfg.pid (firstBlock cfg.pid n).count (firstPids (n + 1))
        check := true } := by
    have hidle : State.Idle { forkedFirst cfg n with mode := .forking n } := ⟨rfl, rfl, rfl⟩
    show (if State.Idle { forkedFirst cfg n with mode := .forking n } then
      State.forked cfg { forkedFirst cfg n with mode := .forking n } (100 + n) 0 else none) = _
    rw [if_pos hidle, State.forked, if_pos ⟨by omega, hfresh⟩]
    unfold forkedFirst
    rw [firstPids_succ, firstWorkers_succ]
    rfl
  have hcheck : ∀ s : State, s.writes = [] → s.check = true → s.stop = 0 →
      (supervision cfg).run s [.run 0] = some { s with check := false } := by
    intro s hw hc hstop
    have hone : (supervision cfg).next s (.run 0) = some { s with check := false } := by
      have hread : s.run cfg 0 = some s.checkStop := by
        unfold State.run
        rw [hw]
        exact if_pos hc
      have hnone : s.checkStop = { s with check := false } := if_neg (not_not.mpr hstop)
      exact hread.trans (congrArg some hnone)
    rw [LabelledSystem.run, hone]
    rfl
  unfold forkTurn
  rw [LabelledSystem.run_append, LabelledSystem.run_append, LabelledSystem.run, htest, Option.bind_some,
    LabelledSystem.run, hfork, Option.bind_some, LabelledSystem.run, Option.bind_some, run_writes cfg _ _ rfl,
    Option.bind_some, hcheck _ rfl rfl rfl]
  rfl

/-- `fork_all`, undisturbed. -/
def forkAll (self : ℤ) (n : ℕ) : List Act := (List.range n).flatMap (forkTurn self)

theorem run_forkAll {n : ℕ} (h : n ≤ cfg.numWorkers) :
    (supervision cfg).run (.armed cfg) (forkAll cfg.pid n) = some (forkedFirst cfg n) := by
  induction n with
  | zero => rfl
  | succ n ih =>
    rw [forkAll, List.range_succ, List.flatMap_append, LabelledSystem.run_append]
    have hbefore := ih (by omega)
    rw [forkAll] at hbefore
    rw [hbefore, Option.bind_some, List.flatMap_singleton, run_forkTurn (by omega)]

/-- The handler leaves a worker alone whose PID it reads nowhere. -/
theorem signalled_of_hidden {b : Block} {w : Worker} (sig : ℕ) {is : List ℕ}
    (h : ∀ i ∈ is, b.childPidAt i ≠ w.pid) : w.signalled b sig is = w := by
  induction is with
  | nil => rfl
  | cons i is ih =>
    have hrest := ih fun j hj => h j (List.mem_cons_of_mem _ hj)
    have hother : w.kill (b.childPidAt i) sig = w :=
      if_neg fun hkill => h i List.mem_cons_self hkill.1.symm
    rw [Worker.signalled, List.foldl_cons]
    split
    · rw [hother]
      exact hrest
    · exact hrest

/-- **The stop of a crowd**: with more workers than the block has room for, the ones past it are not
signalled, and the parent waits for them. -/
theorem stopLost_of_crowd (cfg : Config) (h : maxTrackedChildren < cfg.numWorkers) :
    ∃ e : (supervision cfg).Execution, ∃ k ≤ e.labels.length, StopLost (e.state k) := by
  let n := cfg.numWorkers
  let s : State := { forkedFirst cfg n with mode := State.enter cfg (forkedFirst cfg n).aliveCount }
  let labels : List Act := forkAll cfg.pid n ++ [Act.run 0, .signal sigterm]
  have htest : (supervision cfg).next (forkedFirst cfg n) (.run 0) = some s := by
    show (if cfg.numWorkers ≤ n then _ else _) = _
    rw [if_pos (Nat.le_refl _)]
  have hrun : (supervision cfg).run (.armed cfg) labels = some (s.onSupervisorSignal cfg sigterm) := by
    rw [LabelledSystem.run_append, run_forkAll (Nat.le_refl _), Option.bind_some, LabelledSystem.run,
      htest]
    rfl
  have hsignalled : s.onSupervisorSignal cfg sigterm = { s with
      stop := sigterm
      workers := s.workers.map (Worker.signalled s.block sigterm (List.range s.block.count)) } :=
    onSupervisorSignal_eq sigterm (firstBlock_owner cfg.pid n)
  refine ⟨.ofRun (supervision cfg) labels (by rw [show (supervision cfg).init = .armed cfg from rfl, hrun]; rfl),
    labels.length, Nat.le_refl _, ?_⟩
  have hstate : ((supervision cfg).run (.armed cfg) (labels.take labels.length)).getD (.armed cfg) =
      s.onSupervisorSignal cfg sigterm := by
    rw [List.take_length, hrun]
    rfl
  show StopLost (((supervision cfg).run (.armed cfg) (labels.take labels.length)).getD (.armed cfg))
  have hrecorded : sigterm ≠ 0 := by decide
  rw [hstate, hsignalled]
  refine ⟨hrecorded, ?_, ⟨rfl, rfl, rfl⟩, ?_⟩
  · have halive : 0 < (forkedFirst cfg n).aliveCount :=
      List.countP_pos_iff.mpr ⟨100, List.mem_of_getElem? (firstPids_getElem? (show 0 < n by omega)),
        by decide⟩
    show (State.enter cfg (forkedFirst cfg n).aliveCount).waits
    unfold State.enter
    rw [if_pos (by omega)]
    split <;> rfl
  · -- the worker at the first index past the block
    refine ⟨⟨100 + maxTrackedChildren, maxTrackedChildren, false, [], .running⟩, ?_, rfl, rfl, List.not_mem_nil⟩
    refine List.mem_map.mpr ⟨⟨100 + maxTrackedChildren, maxTrackedChildren, false, [], .running⟩,
      List.mem_map.mpr ⟨maxTrackedChildren, List.mem_range.mpr h, rfl⟩, signalled_of_hidden _ ?_⟩
    intro i hi
    have hcurrent : Current (firstPids n) s.block := firstBlock_current cfg.pid n
    have hcount : i < s.block.count := List.mem_range.mp hi
    have htracked : i < maxTrackedChildren := by rw [hcurrent.count] at hcount; omega
    have hread : s.block.childPidAt i = 100 + (i : ℤ) :=
      (hcurrent.shows (firstPids_getElem? (by omega)) (by omega) htracked).childPidAt (by omega)
    rw [hread]
    show 100 + (i : ℤ) ≠ 100 + (maxTrackedChildren : ℤ)
    omega

def sixtyFiveWorkers : Config := ⟨1, 65, 650, respawnWindowNs, false⟩

/-- **The sixty-fifth worker is not signalled.** -/
theorem sixtyFive_not_stopPassed : ¬ ∀ cfg, ∀ e : (supervision cfg).Execution, StopPassed e := by
  intro h
  obtain ⟨e, k, hk, hlost⟩ := stopLost_of_crowd sixtyFiveWorkers (by decide)
  exact (h sixtyFiveWorkers e).kept k hk hlost

end MojoHttp.Supervisor
