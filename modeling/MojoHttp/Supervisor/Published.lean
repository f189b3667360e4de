import MojoHttp.Supervisor.Table

/-!
# The published PIDs

A publish stores one word at a time, and the handler may run between any two. Every store it makes is
of what the table says, so an index that reads right keeps reading right, and the block says what the
table says once the stores are made.

* **`Shows`** — the handler would signal this PID at this index.
* **`Current`** — the block says what the table says.
* **`current_of_publish`** — a publish leaves it so, whatever the block was.
* **`Shows.exec`** — no store of a publish hides a PID that the table has.
* **`mem_signalled`**, **`sent_of_shows`** — what the handler does to one worker.
-/

namespace MojoHttp.Supervisor

variable {pids : List ℤ} {b : Block}

/-- The handler, run now, reads this PID at this index. -/
def Shows (b : Block) (i : ℕ) (pid : ℤ) : Prop :=
  i < b.count ∧ i < maxTrackedChildren ∧ b.slots[i]? = some pid

/-- The block says what the table says, of the indices it has room for. -/
structure Current (pids : List ℤ) (b : Block) : Prop where
  count : b.count = min pids.length maxTrackedChildren
  slots : ∀ i < b.count, b.slots[i]? = some (publishedPid pids i)

/-- A store that says what the table says. -/
def WriteOk (self : ℤ) (pids : List ℤ) : Write → Prop
  | .owner pid => pid = self
  | .count n => n = min pids.length maxTrackedChildren
  | .slot i pid => pid = publishedPid pids i

theorem publishedPid_of_entry {i : ℕ} {pid : ℤ} (hi : pids[i]? = some pid) (hpos : 0 < pid) :
    publishedPid pids i = pid := by
  rw [publishedPid, List.getD_eq_getElem?_getD, hi]
  exact if_pos hpos

/-! ## One store -/

theorem exec_slots_length (b : Block) (w : Write) : (b.exec w).slots.length = b.slots.length := by
  cases w with
  | slot i pid => exact List.length_set
  | _ => rfl

theorem exec_owner {self : ℤ} {w : Write} (hw : WriteOk self pids w) (hb : b.owner = self) :
    (b.exec w).owner = self := by
  cases w with
  | owner pid => exact hw
  | _ => exact hb

/-- **No store of a publish hides a PID of the table.** -/
theorem Shows.exec {self : ℤ} {i : ℕ} {pid : ℤ} {w : Write} (h : Shows b i pid)
    (hw : WriteOk self pids w) (hentry : pids[i]? = some pid) (hpos : 0 < pid) :
    Shows (b.exec w) i pid := by
  obtain ⟨hcount, htracked, hslot⟩ := h
  cases w with
  | owner p => exact ⟨hcount, htracked, hslot⟩
  | count n =>
    have hlt : i < pids.length := (List.getElem?_eq_some_iff.mp hentry).1
    have hn : n = min pids.length maxTrackedChildren := hw
    exact ⟨show i < n by omega, htracked, hslot⟩
  | slot j p =>
    refine ⟨hcount, htracked, ?_⟩
    show (b.slots.set j p)[i]? = some pid
    by_cases hj : j = i
    · have hp : p = publishedPid pids j := hw
      have hlt : i < b.slots.length := (List.getElem?_eq_some_iff.mp hslot).1
      rw [hj, List.getElem?_set_self hlt, hp, hj, publishedPid_of_entry hentry hpos]
    · rw [List.getElem?_set_ne hj, hslot]

/-! ## A publish -/

theorem writeOk_publish (self : ℤ) (count : ℕ) (pids : List ℤ) :
    ∀ w ∈ publishChildPids self count pids, WriteOk self pids w := by
  intro w hw
  unfold publishChildPids at hw
  rcases List.mem_append.mp hw with hw | hw
  · rcases List.mem_append.mp hw with hw | hw
    · rcases List.mem_cons.mp hw with rfl | hw
      · exact rfl
      · split at hw
        · rw [List.mem_singleton.mp hw]
          exact rfl
        · cases hw
    · obtain ⟨i, -, rfl⟩ := List.mem_map.mp hw
      exact rfl
  · split at hw
    · cases hw
    · rw [List.mem_singleton.mp hw]
      exact rfl

/-- The stores of the slots, one after another. -/
theorem foldl_slots (f : ℕ → ℤ) {n : ℕ} (hn : n ≤ b.slots.length) :
    let b' := ((List.range n).map fun i => Write.slot i (f i)).foldl Block.exec b
    b'.count = b.count ∧ b'.slots.length = b.slots.length ∧ ∀ i < n, b'.slots[i]? = some (f i) := by
  induction n with
  | zero => exact ⟨rfl, rfl, fun i hi => by omega⟩
  | succ n ih =>
    obtain ⟨hcount, hlength, hslots⟩ := ih (by omega)
    rw [List.range_succ, List.map_append, List.foldl_append]
    refine ⟨hcount, List.length_set.trans hlength, fun i hi => ?_⟩
    show (List.set _ n (f n))[i]? = some (f i)
    by_cases heq : n = i
    · rw [← heq, List.getElem?_set_self (by rw [hlength]; omega)]
    · rw [List.getElem?_set_ne heq]
      exact hslots i (by omega)

/-- **A publish leaves the block as the table says**, whatever it said before. -/
theorem current_of_publish (self : ℤ) (pids : List ℤ) (hsize : b.slots.length = maxTrackedChildren) :
    Current pids ((publishChildPids self b.count pids).foldl Block.exec b) := by
  unfold publishChildPids
  dsimp only
  have hroom : min pids.length maxTrackedChildren ≤ b.slots.length := by omega
  by_cases hshrinking : min pids.length maxTrackedChildren < b.count
  · rw [if_pos hshrinking, if_pos hshrinking, List.append_nil, List.foldl_append]
    obtain ⟨hcount, -, hslots⟩ := foldl_slots (b := ⟨min pids.length maxTrackedChildren, b.slots, self⟩)
      (publishedPid pids) hroom
    refine ⟨hcount, fun i hi => hslots i ?_⟩
    exact hi.trans_eq hcount
  · rw [if_neg hshrinking, if_neg hshrinking, List.foldl_append, List.foldl_append]
    obtain ⟨-, -, hslots⟩ := foldl_slots (b := ⟨b.count, b.slots, self⟩) (publishedPid pids) hroom
    exact ⟨rfl, hslots⟩

/-- What the block shows once it is current. -/
theorem Current.shows (h : Current pids b) {i : ℕ} {pid : ℤ} (hi : pids[i]? = some pid)
    (hpos : 0 < pid) (htracked : i < maxTrackedChildren) : Shows b i pid := by
  have hlt : i < pids.length := (List.getElem?_eq_some_iff.mp hi).1
  have hcount : i < b.count := by rw [h.count]; omega
  exact ⟨hcount, htracked, by rw [h.slots i hcount, publishedPid_of_entry hi hpos]⟩

/-! ## The handler -/

theorem Shows.childPidAt {i : ℕ} {pid : ℤ} (h : Shows b i pid) (hpos : 0 < pid) :
    b.childPidAt i = pid := by
  obtain ⟨-, htracked, hslot⟩ := h
  rw [Block.childPidAt, if_neg (by omega), List.getD_eq_getElem?_getD, hslot]
  exact if_pos hpos

/-- One worker, as the handler leaves it. -/
def Worker.signalled (b : Block) (sig : ℕ) (is : List ℕ) (w : Worker) : Worker :=
  is.foldl (fun w i => if 0 < b.childPidAt i then w.kill (b.childPidAt i) sig else w) w

theorem foldl_map_kill (b : Block) (sig : ℕ) (is : List ℕ) (ws : List Worker) :
    is.foldl (fun ws i => if 0 < b.childPidAt i then ws.map (Worker.kill (b.childPidAt i) sig) else ws)
      ws = ws.map (Worker.signalled b sig is) := by
  induction is generalizing ws with
  | nil => exact (List.map_id ws).symm
  | cons i is ih =>
    rw [List.foldl_cons, ih]
    split
    · rename_i hpos
      rw [List.map_map]
      refine List.map_congr_left fun w _ => ?_
      unfold Worker.signalled
      rw [Function.comp, List.foldl_cons, if_pos hpos]
    · rename_i hvacant
      refine List.map_congr_left fun w _ => ?_
      unfold Worker.signalled
      rw [List.foldl_cons, if_neg hvacant]

theorem kill_sent (pid : ℤ) (sig : ℕ) {w : Worker} {sent : ℕ} (h : sent ∈ w.sent) :
    sent ∈ (w.kill pid sig).sent := by
  unfold Worker.kill
  split
  · exact List.mem_cons_of_mem _ h
  · exact h

theorem kill_sent_self (sig : ℕ) {w : Worker} (h : w.phase = .running) :
    sig ∈ (w.kill w.pid sig).sent := by
  rw [Worker.kill, if_pos ⟨rfl, h⟩]
  exact List.mem_cons_self

/-- The handler changes nothing of a worker but what it has been sent. -/
theorem signalled_eq (b : Block) (sig : ℕ) (is : List ℕ) (w : Worker) :
    (w.signalled b sig is).pid = w.pid ∧ (w.signalled b sig is).index = w.index ∧
      (w.signalled b sig is).told = w.told ∧ (w.signalled b sig is).phase = w.phase ∧
      ∀ sent ∈ w.sent, sent ∈ (w.signalled b sig is).sent := by
  induction is generalizing w with
  | nil => exact ⟨rfl, rfl, rfl, rfl, fun _ h => h⟩
  | cons i is ih =>
    rw [Worker.signalled, List.foldl_cons]
    split
    · obtain ⟨hpid, hindex, htold, hphase, hsent⟩ := ih (w.kill (b.childPidAt i) sig)
      rw [Worker.kill_pid] at hpid
      rw [Worker.kill_index] at hindex
      rw [Worker.kill_told] at htold
      rw [Worker.kill_phase] at hphase
      exact ⟨hpid, hindex, htold, hphase, fun sent h => hsent sent (kill_sent _ _ h)⟩
    · exact ih w

/-- **A worker whose PID the handler reads is sent the signal.** -/
theorem sent_of_shows {i : ℕ} {w : Worker} {is : List ℕ} (sig : ℕ) (h : Shows b i w.pid)
    (hpos : 0 < w.pid) (hi : i ∈ is) (hrunning : w.phase = .running) :
    sig ∈ (w.signalled b sig is).sent := by
  induction is generalizing w with
  | nil => cases hi
  | cons j is ih =>
    rw [Worker.signalled, List.foldl_cons]
    rcases List.mem_cons.mp hi with rfl | hi
    · -- the PID read here is the worker's; what follows only adds to what it was sent
      have hread := h.childPidAt hpos
      rw [hread, if_pos hpos]
      exact (signalled_eq b sig is (w.kill w.pid sig)).2.2.2.2 _ (kill_sent_self sig hrunning)
    · split
      · exact ih (by rw [Worker.kill_pid]; exact h) (by rw [Worker.kill_pid]; exact hpos) hi
          (by rw [Worker.kill_phase]; exact hrunning)
      · exact ih h hpos hi hrunning

end MojoHttp.Supervisor
