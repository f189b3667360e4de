import MojoHttp.Lib.Execution

/-!
# The supervisor and its workers

`WorkerSupervisor` (`src/multiworker.mojo`) forks the workers, reaps them, respawns one that
crashed, forks them all again on a reload, and passes a SIGTERM or a SIGINT on. The handler runs
between any two of the parent's accesses to what the two share: the block of child PIDs and the
recorded stop (`src/global_slot.mojo`).

* **`publishChildPids`** — the stores of a publish, in order.
* **`State.onSupervisorSignal`** — the handler.
* **`State.runMode`**, **`State.reaped`**, **`State.forked`** — the parent, between two calls and at
  the answers of `waitpid` and `fork`.
* **`supervision`** — every interleaving of the parent, its workers, the children that are not its
  workers, and the signals it is sent.

The parent raises nothing but the errors of `fork` and of `waitpid`, and a supervisor that raised
has left its loop without returning. The marks of the accept-share page, `--spawn-workers` and the
lines printed are no part of which workers live, and are left out.
-/

namespace MojoHttp.Supervisor

/-! ## Signals and statuses (`lightbug_http/c/process.mojo`) -/

def sigint : ℕ := 2
def sigkill : ℕ := 9
def sigterm : ℕ := 15

def exConfig : ℕ := 78

def wasSignaled (status : ℕ) : Bool := status &&& 0x7F != 0

def termSignal (status : ℕ) : ℕ := status &&& 0x7F

def exitCode (status : ℕ) : ℕ := (status >>> 8) &&& 0xFF

/-! ## The block of child PIDs (`global_slot.mojo`) -/

def maxTrackedChildren : ℕ := 64

def slotProbePid : ℤ := 0x6D305F32

/-- What the handler reads of the children: how many PIDs, the PIDs, and who published them. -/
structure Block where
  count : ℕ
  slots : List ℤ
  owner : ℤ
  deriving DecidableEq

/-- One store into the block. -/
inductive Write where
  | owner (pid : ℤ)
  | count (n : ℕ)
  | slot (i : ℕ) (pid : ℤ)
  deriving DecidableEq

def Block.exec (b : Block) : Write → Block
  | .owner pid => { b with owner := pid }
  | .count n => { b with count := n }
  | .slot i pid => { b with slots := b.slots.set i pid }

/-- What a publish stores for an index: 0 for a vacant one. -/
def publishedPid (pids : List ℤ) (i : ℕ) : ℤ :=
  if 0 < pids.getD i 0 then pids.getD i 0 else 0

/-- The stores of `publish_child_pids` by the process `self` over a block that has `count` PIDs. -/
def publishChildPids (self : ℤ) (count : ℕ) (pids : List ℤ) : List Write :=
  let n := min pids.length maxTrackedChildren
  let shrinking := n < count
  .owner self :: (if shrinking then [.count n] else [])
    ++ (List.range n).map (fun i => .slot i (publishedPid pids i))
    ++ (if shrinking then [] else [.count n])

/-- `child_pid_at`. -/
def Block.childPidAt (b : Block) (i : ℕ) : ℤ :=
  if maxTrackedChildren ≤ i then 0
  else if 0 < b.slots.getD i 0 then b.slots.getD i 0 else 0

/-- The block in a process that has published nothing. -/
def Block.zero : Block := ⟨0, List.replicate maxTrackedChildren 0, 0⟩

/-- What `_arm_signal_propagation` leaves in the block: the probe PID was published and read back,
then the PIDs of no child. -/
def Block.armed (self : ℤ) : Block :=
  let probed := (publishChildPids self 0 [slotProbePid]).foldl Block.exec .zero
  (publishChildPids self probed.count []).foldl Block.exec probed

/-! ## Workers -/

inductive Phase where
  | running
  | exited (status : ℕ)
  | reaped
  deriving DecidableEq

/-- A process the supervisor forked. `told`: a stop was on record in the parent as it was forked, so
it finds that stop in `_forget_supervisor_signals` and leaves there, with 0. -/
structure Worker where
  pid : ℤ
  index : ℤ
  told : Bool
  sent : List ℕ
  phase : Phase
  deriving DecidableEq

/-- Not reaped yet: the kernel keeps its PID for it. -/
def Worker.Live (w : Worker) : Prop := w.phase ≠ .reaped

instance (w : Worker) : Decidable w.Live := inferInstanceAs (Decidable (_ ≠ _))

/-- `kill(pid, sig)`, as it reaches one worker. A process that has exited takes no signal. -/
def Worker.kill (pid : ℤ) (sig : ℕ) (w : Worker) : Worker :=
  if w.pid = pid ∧ w.phase = .running then { w with sent := sig :: w.sent } else w

def Worker.exit (pid : ℤ) (status : ℕ) (w : Worker) : Worker :=
  if w.pid = pid ∧ w.phase = .running then { w with phase := .exited status } else w

def Worker.reap (pid : ℤ) (w : Worker) : Worker :=
  if w.pid = pid then { w with phase := .reaped } else w

/-! ## The parent -/

/-- Where the parent is. `dead` is the worker the status was of, none for a child that is no worker
of its own; the code does not read it. `remaining` is the loops' own variable. -/
inductive Mode where
  /-- `fork_all`, at the top of its loop. -/
  | forkTest (i : ℕ)
  /-- `fork_all`, past its test of the stop. -/
  | forking (i : ℕ)
  | supervise (remaining : ℤ)
  | supervisePolling (remaining : ℤ)
  /-- `_supervise_polling`, asleep before its scan. -/
  | scan (remaining : ℤ)
  /-- `_account_for_exit`, past `_remove_pid`. -/
  | account (dead : Option Worker) (status : ℕ) (remaining : ℤ)
  /-- `_try_respawn`, past its test of the stop. -/
  | budget (dead : Option Worker) (remaining : ℤ)
  /-- `_try_respawn`, past the budget. -/
  | rapid (dead : Option Worker) (remaining : ℤ)
  /-- `_try_respawn`, at its fork. -/
  | respawn (dead : Option Worker) (remaining : ℤ)
  | reapTheRest
  /-- `_reload`, waiting out the drain. -/
  | drain
  /-- `_reload`, past the SIGKILL. -/
  | force
  /-- `_reload`, forking. -/
  | refork (i : ℕ)
  | returned
  | raised
  deriving DecidableEq

/-- `RESPAWN_WINDOW_NS`, an hour. -/
def respawnWindowNs : ℤ := 3600000000000

/-- What is fixed as `fork_all` begins: the scanner is there under `--reload`. -/
structure Config where
  pid : ℤ
  numWorkers : ℕ
  maxRespawns : ℕ
  respawnWindowNs : ℤ
  scanner : Bool

/-- The supervisor's fields, what it shares with its handler, and the workers.

`writes`, `check` and `kills` are what is left of the call the parent is in: stores of
`publish_child_pids`, then the read of the stop in `_publish_children`, then the PIDs of a
`_kill_all` with `killSig`. `observed` records that the parent has read a stop. -/
structure State where
  childPids : List ℤ
  respawnCount : ℕ
  respawnTimes : List ℤ
  rapidCrashCount : ℕ
  lastForkNs : ℤ
  lastFreedIndex : ℤ
  reloads : ℕ
  configRefused : Bool
  failedStopping : Bool
  gaveUp : Bool
  block : Block
  stop : ℕ
  writes : List Write
  check : Bool
  kills : List ℕ
  killSig : ℕ
  workers : List Worker
  mode : Mode
  observed : Bool
  deriving DecidableEq

namespace State

/-- The parent as `fork_all` has armed the handler. -/
def armed (cfg : Config) : State where
  childPids := []
  respawnCount := 0
  respawnTimes := []
  rapidCrashCount := 0
  lastForkNs := 0
  lastFreedIndex := -1
  reloads := 0
  configRefused := false
  failedStopping := false
  gaveUp := false
  block := .armed cfg.pid
  stop := 0
  writes := []
  check := false
  kills := []
  killSig := 0
  workers := []
  mode := .forkTest 0
  observed := false

/-! ### The handler -/

/-- `_on_supervisor_signal`. Nothing of the parent runs while it does, and a second signal that
interrupts it leaves what it would have left behind it. -/
def onSupervisorSignal (cfg : Config) (s : State) (sig : ℕ) : State :=
  let s := { s with stop := sig }
  if s.block.owner ≠ cfg.pid then s
  else
    { s with
      workers := (List.range s.block.count).foldl
        (fun ws i =>
          let pid := s.block.childPidAt i
          if 0 < pid then ws.map (Worker.kill pid sig) else ws)
        s.workers }

/-! ### The calls of the parent -/

/-- `_alive_count`. -/
def aliveCount (s : State) : ℕ := s.childPids.countP (0 < ·)

def startKillAll (s : State) (sig : ℕ) : State :=
  { s with kills := List.range s.childPids.length, killSig := sig }

/-- One PID of `_kill_all`. -/
def killOne (s : State) (i : ℕ) : State :=
  let pid := s.childPids.getD i 0
  if 0 < pid then { s with workers := s.workers.map (Worker.kill pid s.killSig) } else s

def startPublish (cfg : Config) (s : State) : State :=
  { s with writes := publishChildPids cfg.pid s.block.count s.childPids }

/-- `_publish_children`, as it is called. -/
def publishChildren (cfg : Config) (s : State) : State :=
  { s.startPublish cfg with check := true }

/-- `_publish_children`, as it reads the stop. -/
def checkStop (s : State) : State :=
  let s := { s with check := false }
  if s.stop ≠ 0 then { s with observed := true }.startKillAll s.stop else s

/-- `_remove_pid`. -/
def removePid (cfg : Config) (s : State) (pid : ℤ) : State :=
  match s.childPids.findIdx? (· = pid) with
  | some i =>
    { s with childPids := s.childPids.set i (-1), lastFreedIndex := i }.startPublish cfg
  | none => s

/-- `_judge_stopped`. -/
def judgeStopped (s : State) (status : ℕ) : State :=
  if wasSignaled status then
    let sig := termSignal status
    if sig = sigterm ∨ sig = sigint then s else { s with failedStopping := true }
  else
    let code := exitCode status
    if code = 0 then s
    else if code = exConfig then { s with configRefused := true }
    else { s with failedStopping := true }

/-- `while remaining > 0` of the loop that supervises. -/
def enter (cfg : Config) (remaining : ℤ) : Mode :=
  if 0 < remaining then
    if cfg.scanner then .supervisePolling remaining else .supervise remaining
  else .returned

/-- Back in the loop with `_RESPAWN_PARENT`. The polling loop reaps again before any test. -/
def resumeParent (cfg : Config) (remaining : ℤ) : Mode :=
  if cfg.scanner then .supervisePolling remaining else enter cfg remaining

/-- Back in the loop with `_RESPAWN_FAILED`. -/
def resumeFailed (cfg : Config) (remaining : ℤ) : Mode := resumeParent cfg (remaining - 1)

/-- `while self._alive_count() > 0` of `_reap_the_rest`; the loops return after it. -/
def loopRest (s : State) : State :=
  { s with mode := if 0 < s.aliveCount then .reapTheRest else .returned }

/-- `while alive > 0` of `_reload`'s drain. -/
def loopDrain (s : State) : State :=
  { s with mode := if 0 < s.aliveCount then .drain else .refork 0 }

def loopForce (s : State) : State :=
  { s with mode := if 0 < s.aliveCount then .force else .refork 0 }

/-- `_give_up`. -/
def giveUp (cfg : Config) (s : State) (remaining : ℤ) : State :=
  { s with gaveUp := true, mode := resumeFailed cfg remaining }

/-- `_try_respawn`, to its test of the stop. -/
def tryRespawn (cfg : Config) (s : State) (dead : Option Worker) (remaining : ℤ) : State :=
  if s.stop ≠ 0 then
    { s with failedStopping := true, observed := true, mode := resumeFailed cfg remaining }
  else { s with mode := .budget dead remaining }

/-- `_account_for_exit`, past `_remove_pid`. -/
def accountForExit (cfg : Config) (s : State) (dead : Option Worker) (status : ℕ)
    (remaining : ℤ) : State :=
  if wasSignaled status then
    let sig := termSignal status
    if sig = sigterm ∨ sig = sigint then ((s.judgeStopped status).startKillAll sig).loopRest
    else s.tryRespawn cfg dead remaining
  else
    let code := exitCode status
    if code = exConfig then
      let s := { s with configRefused := true }
      if 0 < s.aliveCount then (s.startKillAll sigterm).loopRest
      else { s with mode := .returned }
    else if code ≠ 0 then s.tryRespawn cfg dead remaining
    else { s with mode := resumeFailed cfg remaining }

/-- The budget of `_try_respawn` at its first reading of the clock. -/
def countRespawns (cfg : Config) (s : State) (dead : Option Worker) (remaining now : ℤ) : State :=
  let since := now - cfg.respawnWindowNs
  let s := { s with respawnTimes := s.respawnTimes.dropWhile (· ≤ since) }
  if cfg.maxRespawns ≤ s.respawnTimes.length then s.giveUp cfg remaining
  else { s with mode := .rapid dead remaining }

/-- The rapid-crash breaker of `_try_respawn` at its second reading of the clock. -/
def countRapidCrash (cfg : Config) (s : State) (dead : Option Worker) (remaining now : ℤ) : State :=
  if now - s.lastForkNs < 1000000000 then
    let s := { s with rapidCrashCount := s.rapidCrashCount + 1 }
    if 5 ≤ s.rapidCrashCount then s.giveUp cfg remaining
    else { s with mode := .respawn dead remaining }
  else { s with rapidCrashCount := 0, mode := .respawn dead remaining }

/-- The end of `_reload`, and the recount behind it. -/
def endReload (cfg : Config) (s : State) : State :=
  { s.publishChildren cfg with gaveUp := false, mode := enter cfg s.aliveCount }

/-- The parent up to its next call, in a mode that is not one of waiting; `now` is the clock. -/
def runMode (cfg : Config) (s : State) (now : ℤ) : Option State :=
  match s.mode with
  | .forkTest i =>
    if cfg.numWorkers ≤ i then some { s with mode := enter cfg s.aliveCount }
    else if s.stop ≠ 0 then some { s with observed := true, mode := enter cfg s.aliveCount }
    else some { s with mode := .forking i }
  | .account dead status remaining => some (s.accountForExit cfg dead status remaining)
  | .budget dead remaining => some (s.countRespawns cfg dead remaining now)
  | .rapid dead remaining => some (s.countRapidCrash cfg dead remaining now)
  | .refork i =>
    match s.childPids[i]? with
    | none => some (s.endReload cfg)
    | some pid => if 0 < pid then some { s with mode := .refork (i + 1) } else none
  | _ => none

/-- The parent's next access to what it shares with the handler; without one, `runMode`. -/
def run (cfg : Config) (s : State) (now : ℤ) : Option State :=
  match s.writes with
  | w :: writes => some { s with block := s.block.exec w, writes }
  | [] =>
    if s.check then some s.checkStop
    else
      match s.kills with
      | i :: kills => some ({ s with kills }.killOne i)
      | [] => s.runMode cfg now

/-- Nothing is left of a publish or of a `_kill_all`. -/
def Idle (s : State) : Prop := s.writes = [] ∧ s.check = false ∧ s.kills = []

instance (s : State) : Decidable s.Idle := inferInstanceAs (Decidable (_ ∧ _))

/-! ### The answers of `fork` -/

/-- A new process for an index. It inherits the stop on record. -/
def spawn (s : State) (pid index : ℤ) : State :=
  { s with workers := s.workers ++ [⟨pid, index, s.stop ≠ 0, [], .running⟩] }

/-- The bookkeeping of `_try_respawn` before its fork. -/
def noteRespawn (s : State) (now : ℤ) : State :=
  { s with
    respawnCount := s.respawnCount + 1
    lastForkNs := now
    respawnTimes := s.respawnTimes ++ [now] }

/-- `_try_respawn` in the parent, past its fork. -/
def placeRespawn (cfg : Config) (s : State) (pid remaining : ℤ) : State :=
  let index := s.lastFreedIndex
  let s := { s with mode := resumeParent cfg remaining }
  if 0 ≤ index ∧ index < s.childPids.length then
    { s with childPids := s.childPids.set index.toNat pid }.publishChildren cfg
  else s

/-- `fork` has answered the PID of a child, which no process the parent has not reaped holds. -/
def forked (cfg : Config) (s : State) (pid now : ℤ) : Option State :=
  if 0 < pid ∧ ∀ w ∈ s.workers, w.Live → w.pid ≠ pid then
    match s.mode with
    | .forking i =>
      let s := { s.spawn pid i with lastForkNs := now, mode := .forkTest (i + 1) }
      some ({ s with childPids := s.childPids ++ [pid] }.publishChildren cfg)
    | .respawn _ remaining =>
      some (((s.noteRespawn now).spawn pid s.lastFreedIndex).placeRespawn cfg pid remaining)
    | .refork i =>
      if (s.childPids.getD i 1) ≤ 0 then
        some { s.spawn pid i with
          lastForkNs := now
          childPids := s.childPids.set i pid
          mode := .refork (i + 1) }
      else none
    | _ => none
  else none

/-- `fork` has raised, at the process limit. -/
def forkRaised (s : State) (now : ℤ) : Option State :=
  match s.mode with
  | .forking _ => some { s with lastForkNs := now, mode := .raised }
  | .respawn .. => some { s.noteRespawn now with mode := .raised }
  | .refork i =>
    if (s.childPids.getD i 1) ≤ 0 then some { s with lastForkNs := now, mode := .raised } else none
  | _ => none

/-! ### The answers of `waitpid` -/

/-- Whose status `waitpid` has answered: a worker's, or that of another child of the process, which
holds a PID that no worker holds. -/
def waited (s : State) (pid : ℤ) (status : ℕ) : Option (Option Worker) :=
  match s.workers.find? (fun w => w.pid = pid ∧ w.phase = .exited status) with
  | some w => some (some w)
  | none => if 0 < pid ∧ ∀ w ∈ s.workers, w.Live → w.pid ≠ pid then some none else none

/-- The parent with a reaped child, past its `_remove_pid`. -/
def reapedAs (cfg : Config) (s : State) (dead : Option Worker) (pid : ℤ) (status : ℕ) :
    Option State :=
  let s := { s with workers := s.workers.map (Worker.reap pid) }.removePid cfg pid
  match s.mode with
  | .supervise remaining | .supervisePolling remaining =>
    some { s with mode := .account dead status remaining }
  | .reapTheRest => some (s.judgeStopped status).loopRest
  | .drain => some s.loopDrain
  | .force => some s.loopForce
  | _ => none

def reaped (cfg : Config) (s : State) (pid : ℤ) (status : ℕ) : Option State :=
  (s.waited pid status).bind fun dead => s.reapedAs cfg dead pid status

/-- `ECHILD`: no child is left, so no worker. The blocking wait raises it. -/
def noChild (s : State) : Option State :=
  if ∀ w ∈ s.workers, w.phase = .reaped then
    match s.mode with
    | .supervisePolling _ => some { s with mode := .returned }
    | .drain => some { s with mode := .refork 0 }
    | .supervise _ | .reapTheRest | .force => some { s with mode := .raised }
    | _ => none
  else none

/-- No child has exited. -/
def noneExited (s : State) : Option State :=
  match s.mode with
  | .supervisePolling remaining =>
    some { s with mode := if remaining = 0 then .returned else .scan remaining }
  | .drain => some s
  | _ => none

/-! ### The clock of a reload and its scanner -/

/-- The drain of `_reload` has lasted its time. -/
def drainOver (s : State) : Option State :=
  match s.mode with
  | .drain => some (s.startKillAll sigkill).loopForce
  | _ => none

/-- `changed()` has answered. -/
def scanned (s : State) (changed : Bool) : Option State :=
  match s.mode with
  | .scan remaining =>
    if changed then some ({ s with reloads := s.reloads + 1 }.startKillAll sigterm).loopDrain
    else some { s with mode := if 0 < remaining then .supervisePolling remaining else .returned }
  | _ => none

end State

/-! ## The system -/

inductive Act where
  | run (now : ℤ)
  | forked (pid now : ℤ)
  | forkRaised (now : ℤ)
  | reaped (pid : ℤ) (status : ℕ)
  | noChild
  | noneExited
  | drainOver
  | scanned (changed : Bool)
  | signal (sig : ℕ)
  | exited (pid : ℤ) (status : ℕ)
  deriving DecidableEq

/-- What the parent itself does, once it is through with the call it was in. -/
def State.call (cfg : Config) (s : State) : Act → Option State
  | .forked pid now => s.forked cfg pid now
  | .forkRaised now => s.forkRaised now
  | .reaped pid status => s.reaped cfg pid status
  | .noChild => s.noChild
  | .noneExited => s.noneExited
  | .drainOver => s.drainOver
  | .scanned changed => s.scanned changed
  | _ => none

/-- A signal and the end of a worker come at any time. -/
def State.next (cfg : Config) (s : State) : Act → Option State
  | .signal sig =>
    if sig = sigterm ∨ sig = sigint then some (s.onSupervisorSignal cfg sig) else none
  | .exited pid status => some { s with workers := s.workers.map (Worker.exit pid status) }
  | .run now => s.run cfg now
  | act => if s.Idle then s.call cfg act else none

def supervision (cfg : Config) : LabelledSystem State Act := ⟨.armed cfg, State.next cfg⟩

end MojoHttp.Supervisor
