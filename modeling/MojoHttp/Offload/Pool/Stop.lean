import MojoHttp.Offload.Pool.Pills

/-!
# Stopping a pool

`stop` sends a pill by name to each thread of a lane that has a channel, and one to the lane's socket
for each of the others: those that never got a channel, and those that have left. A thread that has
a channel reads the socket too. When it takes a pill there, its own stays on its channel, and one
that waits for that pill is not told.

* **`Told`** — how far the stop is on each lane, and who it has told.
* **`told_step`** — a step keeps it, unless it takes a lane's pill that was not to spare.
-/

namespace MojoHttp

namespace Offload

open Threads (Next Program)

namespace Pool

variable {c : Setup}

/-- The threads before `t` that a pill is sent to by name. -/
def named (c : Setup) (lane t : Nat) : Nat :=
  ((Finset.range t).filter fun i => c.own i = true ∧ c.lane i = lane).card

/-- How many pills the stop has still to put on a lane's socket. -/
def leftToPut (s : State) (lane : Nat) : Nat :=
  match s.pc .stopper with
  | some (.stop (.put lane' _ left)) => if lane' = lane then left + 1 else 0
  | _ => 0

/-- The lanes a point of the stop has still to put a pill for, or to go through. -/
def Pc.todo : Pc → List Nat
  | .stopping rest => rest
  | .stop (.scan lane rest _ _) => lane :: rest
  | .stop (.pill lane rest _ _) => lane :: rest
  | .stop (.put lane rest _) => lane :: rest
  | _ => []

/-- Every thread of the lane before `t` that has a channel is reached. -/
def NamedBelow (c : Setup) (s : State) (lane t : Nat) : Prop :=
  ∀ j < t, c.own j = true → c.lane j = lane → Reached s j

/-- How far `stop` is on a lane, at a point of its scan. -/
def Scanned (c : Setup) (s : State) (lane t pilled : Nat) : Prop :=
  pilled ≤ named c lane t ∧ NamedBelow c s lane t

/-- **How far the stop is.** -/
structure Told (c : Setup) (s : State) : Prop where
  stops : ∀ pc, s.pc .stopper = some pc → pc.stops = true
  todo : ∀ pc, s.pc .stopper = some pc → ∀ lane ∈ c.stopOrder,
    lane ∈ s.mem.pilled ∨ lane ∈ pc.todo
  scan : ∀ lane rest t pilled, s.pc .stopper = some (.stop (.scan lane rest t pilled)) →
    Scanned c s lane t pilled
  pill : ∀ lane rest t pilled, s.pc .stopper = some (.stop (.pill lane rest t pilled)) →
    Scanned c s lane t pilled ∧ c.own t = true ∧ c.lane t = lane
  put : ∀ lane, lane ∈ s.mem.pilled ∨ 0 < leftToPut s lane →
    (∀ j, c.own j = true → c.lane j = lane → Reached s j) ∧
      wanting c s lane ≤ pillsOn s.mem lane + leftToPut s lane

/-! ## The threads of a lane -/

/-- The threads sent a pill by name and those that want one of the lane's are threads of the lane. -/
theorem wanting_add_named {s : State} {lane t : Nat} :
    wanting c s lane + named c lane t ≤ c.dealtOn lane := by
  have hlt : ∀ i, c.own i = true → i < c.threads.length := fun i h =>
    Nat.lt_of_lt_of_le (lt_registered h) (Nat.min_le_left ..)
  unfold wanting named
  rw [dealtOn_eq, ← Finset.card_union_of_disjoint]
  · refine Finset.card_le_card fun i hi => ?_
    rw [Finset.mem_filter, Finset.mem_range]
    rcases Finset.mem_union.mp hi with hw | hn
    · obtain ⟨hi, hw⟩ := Finset.mem_filter.mp hw
      exact ⟨Finset.mem_range.mp hi, (wanted_iff.mp hw).1⟩
    · obtain ⟨-, hown, hlane⟩ := Finset.mem_filter.mp hn
      exact ⟨hlt i hown, hlane⟩
  · refine Finset.disjoint_left.mpr fun i hw hn => ?_
    have hnone := (wanted_iff.mp (Finset.mem_filter.mp hw).2).2.1
    rw [(Finset.mem_filter.mp hn).2.1] at hnone
    cases hnone

theorem named_mono {lane t t' : Nat} (h : t ≤ t') : named c lane t ≤ named c lane t' :=
  Finset.card_le_card (Finset.filter_subset_filter _ (Finset.range_mono h))

theorem named_succ {lane t : Nat} (hown : c.own t = true) (hlane : c.lane t = lane) :
    named c lane (t + 1) = named c lane t + 1 := by
  unfold named
  rw [Finset.range_add_one, Finset.filter_insert, if_pos ⟨hown, hlane⟩,
    Finset.card_insert_of_notMem (by simp)]

/-! ## A step keeps it -/

theorem leftToPut_congr {s s' : State} (h : s'.pc .stopper = s.pc .stopper) (lane : Nat) :
    leftToPut s' lane = leftToPut s lane := by
  unfold leftToPut
  rw [h]

theorem leftToPut_none {s : State} (h : ∀ lane rest left, s.pc .stopper ≠ some (.stop (.put lane rest left)))
    (lane : Nat) : leftToPut s lane = 0 := by
  unfold leftToPut
  split
  · exact absurd ‹_› (h _ _ _)
  · rfl

/-- The stop stands where it stood. -/
theorem Told.keep {s s' : State} (h : Told c s) (hpc : s'.pc .stopper = s.pc .stopper)
    (hpilled : s'.mem.pilled = s.mem.pilled) (hreach : ∀ j, Reached s j → Reached s' j)
    (hpills : ∀ lane, wanting c s lane ≤ pillsOn s.mem lane + leftToPut s lane →
      wanting c s' lane ≤ pillsOn s'.mem lane + leftToPut s lane) : Told c s' where
  stops pc hp := h.stops pc (hpc ▸ hp)
  todo pc hp := hpilled ▸ h.todo pc (hpc ▸ hp)
  scan lane rest t pilled hp := by
    have ⟨hle, hbelow⟩ := h.scan lane rest t pilled (hpc ▸ hp)
    exact ⟨hle, fun j hj hown hlane => hreach j (hbelow j hj hown hlane)⟩
  pill lane rest t pilled hp := by
    have ⟨⟨hle, hbelow⟩, hat⟩ := h.pill lane rest t pilled (hpc ▸ hp)
    exact ⟨⟨hle, fun j hj hown hlane => hreach j (hbelow j hj hown hlane)⟩, hat⟩
  put lane hl := by
    rw [hpilled, leftToPut_congr hpc] at hl
    have ⟨hnamed, hle⟩ := h.put lane hl
    rw [leftToPut_congr hpc]
    exact ⟨fun j hown hlane => hreach j (hnamed j hown hlane), hpills lane hle⟩

/-- What holds of the lanes that have their pills. -/
def Served (c : Setup) (s : State) (m : Mem) (lane : Nat) : Prop :=
  (∀ j, c.own j = true → c.lane j = lane → Reached s j) ∧ wanting c s lane ≤ pillsOn m lane

/-- What holds at a point of the stop where it has no more pills to put on a lane. -/
def Between (c : Setup) (s : State) : Pc → Prop
  | .stopping _ => True
  | .stop (.scan lane _ t pilled) => Scanned c s lane t pilled
  | .stop (.pill lane _ t pilled) => Scanned c s lane t pilled ∧ c.own t = true ∧ c.lane t = lane
  | _ => False

theorem told_between {s : State}
    (hpoint : ∀ pc, s.pc .stopper = some pc →
      Between c s pc ∧ ∀ lane ∈ c.stopOrder, lane ∈ s.mem.pilled ∨ lane ∈ pc.todo)
    (hold : ∀ lane ∈ s.mem.pilled, Served c s s.mem lane) : Told c s where
  stops pc hp := by
    have hat := (hpoint pc hp).1
    cases pc with
    | stopping | stop => rfl
    | _ => exact hat.elim
  todo pc hp := (hpoint pc hp).2
  scan lane rest t pilled hp := (hpoint _ hp).1
  pill lane rest t pilled hp := (hpoint _ hp).1
  put lane hl := by
    have hnone : leftToPut s lane = 0 :=
      leftToPut_none (fun lane rest left hp => (hpoint _ hp).1) lane
    rw [hnone] at hl ⊢
    exact hold lane (hl.resolve_right (Nat.lt_irrefl 0))

section

variable {s s' : State} {m : Mem} {lane : Nat} {rest : List Nat}

/-- Behind the last pill of a lane, or with more of them to put. -/
theorem told_putNext {left : Nat}
    (hmem : s'.mem = (putNext m lane rest left).1)
    (hpc : s'.pc .stopper = (putNext m lane rest left).2.point)
    (htodo : ∀ l ∈ c.stopOrder, l ∈ m.pilled ∨ l ∈ lane :: rest)
    (hnamed : ∀ j, c.own j = true → c.lane j = lane → Reached s' j)
    (hwant : wanting c s' lane ≤ pillsOn m lane + left)
    (hold : ∀ l ∈ m.pilled, l ≠ lane → Served c s' m l) : Told c s' := by
  cases left with
  | zero =>
    have hpilled : s'.mem.pilled = lane :: m.pilled := by
      rw [hmem]
      rfl
    refine told_between (fun pc hp => ?_) fun l hl => ?_
    · -- the next lane's scan begins, if there is one
      rw [hpc] at hp
      cases rest with
      | nil => cases hp
      | cons next rest =>
        cases hp
        refine ⟨⟨Nat.zero_le _, fun j hj => absurd hj (Nat.not_lt_zero j)⟩, fun l hl => ?_⟩
        rw [hpilled]
        have hl' := htodo l hl
        show l ∈ lane :: m.pilled ∨ l ∈ next :: rest
        simp only [List.mem_cons] at hl' ⊢
        tauto
    · have hpills : pillsOn s'.mem l = pillsOn m l := pillsOn_congr (by rw [hmem]; rfl) l
      rw [hpilled] at hl
      unfold Served
      rw [hpills]
      rcases eq_or_ne l lane with rfl | hne
      · exact ⟨hnamed, hwant⟩
      · exact hold l ((List.mem_cons.mp hl).resolve_left hne) hne
  | succ left =>
    have hat : s'.pc .stopper = some (.stop (.put lane rest left)) := hpc
    have hleft : ∀ l, leftToPut s' l = if lane = l then left + 1 else 0 := by
      intro l
      unfold leftToPut
      rw [hat]
    have hmem' : s'.mem = m := hmem
    refine ⟨fun pc hp => ?_, fun pc hp l hl => ?_, fun l rest' t pilled hp => ?_,
      fun l rest' t pilled hp => ?_, fun l hl => ?_⟩
    · rw [hat] at hp
      cases hp
      rfl
    · rw [hat] at hp
      cases hp
      rw [hmem']
      exact htodo l hl
    · rw [hat] at hp
      cases hp
    · rw [hat] at hp
      cases hp
    · rw [hleft, hmem'] at hl ⊢
      rcases eq_or_ne lane l with rfl | hne
      · rw [if_pos rfl]
        exact ⟨hnamed, hwant⟩
      · rw [if_neg hne] at hl ⊢
        exact hold l (hl.resolve_right (Nat.lt_irrefl 0)) hne.symm

/-- Behind a record of the scan. -/
theorem told_stopScan {t pilled : Nat}
    (hmem : s'.mem = (stopScan c m lane rest t pilled).1)
    (hpc : s'.pc .stopper = (stopScan c m lane rest t pilled).2.point)
    (htodo : ∀ l ∈ c.stopOrder, l ∈ m.pilled ∨ l ∈ lane :: rest)
    (hscanned : Scanned c s' lane t pilled)
    (hold : ∀ l ∈ m.pilled, Served c s' m l) : Told c s' := by
  unfold stopScan at hmem hpc
  split at hmem
  · rename_i hlt
    rw [if_pos hlt] at hpc
    have hmem' : s'.mem = m := hmem
    refine told_between (fun pc hp => ?_) (hmem' ▸ hold)
    rw [hpc] at hp
    cases hp
    rw [hmem']
    exact ⟨hscanned, htodo⟩
  · -- the scan is over: every thread of the lane that has a channel was reached
    rename_i hge
    rw [if_neg hge] at hpc
    refine told_putNext hmem hpc htodo (fun j hown hlane => ?_) ?_ fun l hl _ => hold l hl
    · have hj : j < t := Nat.lt_of_lt_of_le (lt_registered hown) (Nat.le_of_not_lt hge)
      exact hscanned.2 j hj hown hlane
    · have hsum := @wanting_add_named c s' lane t
      have hle := hscanned.1
      omega

end

/-- The stop's own step. -/
theorem told_stopper {pc : Pc} {m' : Mem} {nx : Next Pc Res} {s : State} (h : Told c s)
    (hp : Placed c s) (hpc : s.pc .stopper = some pc) (hadv : advance c s.mem pc = (m', nx)) :
    Told c (s.move .stopper m' nx.point) := by
  have hreach : ∀ j, Reached s j → Reached (s.move .stopper m' nx.point) j :=
    fun j hj => hj.step hp hpc hadv
  have hwant : ∀ lane, wanting c (s.move .stopper m' nx.point) lane ≤ wanting c s lane :=
    fun lane => wanting_le fun i => wanted_step hp hpc hadv
  have hat : (s.move .stopper m' nx.point).pc .stopper = nx.point := s.move_pc_self ..
  have hmem : m' = (advance c s.mem pc).1 := (congrArg Prod.fst hadv).symm
  have hnext : nx = (advance c s.mem pc).2 := (congrArg Prod.snd hadv).symm
  have htodo := h.todo pc hpc
  -- the lanes that had their pills before
  have hold : (∀ lane rest left, pc ≠ .stop (.put lane rest left)) → ∀ l ∈ s.mem.pilled,
      Served c (s.move .stopper m' nx.point) s.mem l := by
    intro hput l hl
    obtain ⟨hnamed, hle⟩ := h.put l (Or.inl hl)
    have hnone : leftToPut s l = 0 := leftToPut_none (fun lane rest left hp' => by
      rw [hpc] at hp'
      exact hput lane rest left (Option.some.inj hp')) l
    rw [hnone] at hle
    exact ⟨fun j hown hlane => hreach j (hnamed j hown hlane), (hwant l).trans hle⟩
  cases pc with
  | stopping rest =>
    refine told_between (fun pc hp' => ?_) (hmem ▸ hold (by rintro _ _ _ ⟨⟩))
    rw [hat, hnext] at hp'
    rw [Threads.State.move_mem, hmem]
    cases rest with
    | nil => cases hp'
    | cons lane rest =>
      cases hp'
      exact ⟨⟨Nat.zero_le _, fun j hj => absurd hj (Nat.not_lt_zero j)⟩, htodo⟩
  | stop st =>
    cases st with
    | scan lane rest t pilled =>
      obtain ⟨hle, hbelow⟩ := h.scan lane rest t pilled hpc
      have hscanned : Scanned c (s.move .stopper m' nx.point) lane t pilled :=
        ⟨hle, fun j hj hown hlane => hreach j (hbelow j hj hown hlane)⟩
      simp only [advance, stopStep] at hmem hnext
      split at hmem
      · rename_i hrec
        rw [if_pos hrec] at hnext
        -- a record under a lane is its thread's own
        have hown : c.own t = true := by
          by_contra hnot
          have hlane := ((hp.record t).none (by simpa using hnot)).1
          omega
        have hlane : c.lane t = lane := by
          rcases (hp.record t).own hown with heq | ⟨heq, -⟩ <;> omega
        refine told_between (fun pc hp' => ?_) (hmem ▸ hold (by rintro _ _ _ ⟨⟩))
        rw [hat, hnext] at hp'
        cases hp'
        rw [Threads.State.move_mem, hmem]
        exact ⟨⟨hmem ▸ hscanned, hown, hlane⟩, htodo⟩
      · rename_i hnot
        rw [if_neg hnot] at hnext
        refine told_stopScan hmem (hat.trans (congrArg Next.point hnext)) htodo ?_ (hold (by rintro _ _ _ ⟨⟩))
        refine ⟨hle.trans (named_mono (Nat.le_succ t)), fun j hj hown hlane => ?_⟩
        rcases Nat.lt_succ_iff_lt_or_eq.mp hj with hlt | rfl
        · exact hscanned.2 j hlt hown hlane
        · -- its thread has left
          refine hreach j (Or.inr (Or.inr (Or.inl ?_)))
          rcases (hp.record j).own hown with heq | ⟨-, hleft⟩
          · exact absurd ⟨lt_registered hown, by rw [heq, hlane]⟩ hnot
          · rw [hleft]
            exact Life.noConfusion
    | pill lane rest t pilled =>
      obtain ⟨⟨hle, hbelow⟩, hown, hlane⟩ := h.pill lane rest t pilled hpc
      refine told_stopScan hmem (hat.trans (congrArg Next.point hnext)) htodo ?_ (hold (by rintro _ _ _ ⟨⟩))
      refine ⟨by rw [named_succ hown hlane]; omega, fun j hj hown' hlane' => ?_⟩
      rcases Nat.lt_succ_iff_lt_or_eq.mp hj with hlt | rfl
      · exact hreach j (hbelow j hlt hown' hlane')
      · refine Or.inl ?_
        show .pill ∈ (m'.recs j).channel
        rw [hmem]
        simp only [advance, stopStep, stopScan_recs, setRec_self]
        simp
    | put lane rest left =>
      have hleft : ∀ l, leftToPut s l = if lane = l then left + 1 else 0 := by
        intro l
        unfold leftToPut
        rw [hpc]
      simp only [advance, stopStep] at hmem hnext
      split at hmem
      · rename_i hfits
        rw [if_pos hfits] at hnext
        obtain ⟨hnamed, hle⟩ := h.put lane (Or.inr (by rw [hleft, if_pos rfl]; omega))
        rw [hleft, if_pos rfl] at hle
        refine told_putNext hmem (hat.trans (congrArg Next.point hnext)) htodo
          (fun j hown hlane => hreach j (hnamed j hown hlane)) ?_ fun l hl hne => ?_
        · have hmore : pillsOn (s.mem.setLane lane fun l => { l with socket := l.socket ++ [Datagram.pill] })
              lane = pillsOn s.mem lane + 1 := by
            unfold pillsOn
            rw [setLane_self, List.count_append]
            rfl
          have hwant' := hwant lane
          omega
        · obtain ⟨hnamed', hle'⟩ := h.put l (Or.inl hl)
          rw [hleft, if_neg hne.symm] at hle'
          refine ⟨fun j hown hlane => hreach j (hnamed' j hown hlane), (hwant l).trans ?_⟩
          unfold pillsOn
          rw [setLane_of_ne _ _ hne]
          exact hle'
      · -- there is no room for it yet
        rename_i hfull
        rw [if_neg hfull] at hnext
        obtain rfl := hmem
        obtain rfl := hnext
        exact h.keep (hat.trans hpc.symm) rfl hreach fun l hle => (hwant l).trans hle
  | _ => cases h.stops _ hpc

/-- Only the stop puts a lane's pills. -/
theorem advance_pilled (m : Mem) (pc : Pc) (h : pc.stops = false) :
    (advance c m pc).1.pilled = m.pilled := by
  have hfound : ∀ (m' : Mem) (i : Nat) (look : Look) (job : Job) (fromRing : Bool),
      (found c m' i look job fromRing).1.pilled = m'.pilled := by
    intro m' i look job fromRing
    unfold found
    split
    · rfl
    · exact give_pilled m' i job
  have hunparked : ∀ (m' : Mem) (i : Nat) (got : Own), (unparked m' i got).1.pilled = m'.pilled := by
    intro m' i got
    cases got <;> rfl
  cases pc with
  | stopping | stop => cases h
  | thread i step =>
    cases step with
    | spinDown found | sockUncount found =>
      cases found with
      | none => rfl
      | some job => simp [advance, threadStep]
    | unparkCount | unparkStore => simp [advance, threadStep, hunparked]
    | leaveCount | leaveStore => simp [advance, threadStep]
    | pill | pollOwn | pollSocket | recheckSocket | sockRecv | block | unpark | leave | leaveRecv
    | unregister | retire =>
      simp only [advance, threadStep]
      split <;> simp [hfound, Mem.setLife]
    | _ => rfl
  | wake lane after w =>
    cases w with
    | claim | pokeSocket =>
      simp only [advance, wakeStep]
      split <;> rfl
    | _ => rfl
  | send lane slot =>
    simp only [advance]
    split <;> rfl
  | _ => rfl

/-- A thread with a channel takes no pill off its lane's socket but one to spare: those there, and
those still to be put there, outnumber the threads that no pill has told. -/
def Spared (c : Setup) (s : State) (t : Who) : Prop :=
  ∀ i step, s.pc t = some (.thread i step) → c.own i = true → TakesPill c s.mem i step →
    wanting c s (c.lane i) < pillsOn s.mem (c.lane i) + leftToPut s (c.lane i)

/-- A thread of the pool that takes a pill off its lane's socket. -/
theorem pills_taken {s : State} {t : Who} {i : Nat} {step : Step} {m' : Mem} {nx : Next Pc Res}
    (hp : Placed c s) (hpc : s.pc t = some (.thread i step))
    (hadv : advance c s.mem (.thread i step) = (m', nx)) (hspared : Spared c s t)
    (htakes : TakesPill c s.mem i step) (lane : Nat)
    (hle : wanting c s lane ≤ pillsOn s.mem lane + leftToPut s lane) :
    wanting c (s.move t m' nx.point) lane ≤ pillsOn m' lane + leftToPut s lane := by
  have hwant : wanting c (s.move t m' nx.point) lane ≤ wanting c s lane :=
    wanting_le fun j => wanted_step hp hpc hadv
  obtain ⟨rfl, hlt, hok⟩ := hp.thread t i step hpc
  have ⟨⟨hone, hother⟩, htold⟩ := thread_takes htakes
  have hmem : m' = (threadStep c s.mem i step).1 := (congrArg Prod.fst hadv).symm
  have hnext : nx = (threadStep c s.mem i step).2 := (congrArg Prod.snd hadv).symm
  rw [← hmem] at hone hother htold
  rw [← hnext] at htold
  rcases eq_or_ne lane (c.lane i) with rfl | hne
  · cases howner : c.own i with
    | true =>
      have hspare := hspared i step hpc howner htakes
      omega
    | false =>
      -- the pill tells this thread, which no pill had told
      have hfewer : wanting c (s.move (.thread i) m' nx.point) (c.lane i) <
          wanting c s (c.lane i) := by
        refine wanting_lt (fun j => wanted_step hp hpc hadv) hlt ?_ ?_
        · refine wanted_iff.mpr ⟨rfl, howner, hok.serving ?_, ?_⟩
          · have hreads := htakes.1
            cases step with
            | pollSocket | recheckSocket | sockRecv => rfl
            | _ => cases hreads
          · rw [holdsLane_of_pc hpc]
            have hreads := htakes.1
            cases step with
            | pollSocket | recheckSocket | sockRecv => rfl
            | _ => cases hreads
        · have hnot : step.needsOwn = false := by
            by_contra hneeds
            rw [hok.own (by simpa using hneeds)] at howner
            cases howner
          rw [Bool.eq_false_iff]
          intro hwanted
          have ⟨_, _, hlife, hholds⟩ := wanted_iff.mp hwanted
          rcases htold hnot with hgone | ⟨step', hpoint, htold'⟩
          · exact hgone hlife
          · have hpc' : (s.move (.thread i) m' nx.point).pc (.thread i) = some (.thread i step') := by
              rw [s.move_pc_self, hpoint]
            rw [holdsLane_of_pc hpc', htold'] at hholds
            cases hholds
      omega
  · rw [hother lane hne]
    omega

/-- **A step keeps it**, when it takes no pill but one to spare. -/
theorem told_step {s : State} {t : Who} {pc : Pc} {m' : Mem} {nx : Next Pc Res} (h : Told c s)
    (hp : Placed c s) (hpc : s.pc t = some pc) (hadv : advance c s.mem pc = (m', nx))
    (hspared : Spared c s t) : Told c (s.move t m' nx.point) := by
  rcases eq_or_ne t .stopper with rfl | hne
  · exact told_stopper h hp hpc hadv
  · have hstop : pc.stops = false := by
      rw [Bool.eq_false_iff]
      exact fun heq => hne (hp.stop t pc hpc heq)
    have hmem : m' = (advance c s.mem pc).1 := (congrArg Prod.fst hadv).symm
    refine h.keep (s.move_pc_of_ne _ _ hne.symm) ?_ (fun j hj => hj.step hp hpc hadv) fun lane hle => ?_
    · rw [Threads.State.move_mem, hmem, advance_pilled _ _ hstop]
    · have hwant : wanting c (s.move t m' nx.point) lane ≤ wanting c s lane :=
        wanting_le fun i => wanted_step hp hpc hadv
      by_cases hthread : ∃ i step, pc = .thread i step
      · obtain ⟨i, step, rfl⟩ := hthread
        by_cases htakes : TakesPill c s.mem i step
        · exact pills_taken hp hpc hadv hspared htakes lane hle
        · have hsame : pillsOn m' lane = pillsOn s.mem lane := by
            rw [hmem]
            exact thread_pills htakes lane
          rw [Threads.State.move_mem, hsame]
          omega
      · have hsame : pillsOn m' lane = pillsOn s.mem lane := by
          rw [hmem]
          exact aside_pills s.mem pc hstop (fun i step heq => hthread ⟨i, step, heq⟩) lane
        rw [Threads.State.move_mem, hsame]
        omega

/-- Who starts a call stands at its start, and nobody else moves. -/
theorem told_call {s : State} {t : Who} {op : Op} (h : Told c s) (hpc : s.pc t = none)
    (hmay : may c t op = true) : Told c (s.move t s.mem (some (Pc.start c op))) := by
  have hwho : op.who = t := by
    simp only [may, Bool.and_eq_true, beq_iff_eq] at hmay
    exact hmay.1
  have hreach : ∀ j, Reached s j → Reached (s.move t s.mem (some (Pc.start c op))) j := by
    intro j hj
    refine hj.imp_right (Or.imp_right (Or.imp_right ?_))
    rintro ⟨step, hat, hholds⟩
    refine ⟨step, ?_, hholds⟩
    rwa [s.move_pc_of_ne]
    rintro rfl
    rw [hpc] at hat
    cases hat
  have hwant : ∀ lane, wanting c (s.move t s.mem (some (Pc.start c op))) lane ≤ wanting c s lane := by
    refine fun lane => wanting_le fun i hi => ?_
    obtain ⟨hlane, hown, hlife, hholds⟩ := wanted_iff.mp hi
    refine wanted_iff.mpr ⟨hlane, hown, hlife, ?_⟩
    unfold holdsLane at hholds ⊢
    rcases eq_or_ne (.thread i : Who) t with rfl | hne
    · rw [hpc]
    · rwa [s.move_pc_of_ne _ _ hne] at hholds
  rcases eq_or_ne t .stopper with rfl | hne
  · cases op with
    | stopAndJoin =>
      refine told_between (fun pc hp => ?_) fun lane hl => ?_
      · rw [s.move_pc_self] at hp
        cases hp
        exact ⟨trivial, fun lane hl => Or.inr hl⟩
      · obtain ⟨hnamed, hle⟩ := h.put lane (Or.inl hl)
        have hnone : leftToPut s lane = 0 := leftToPut_none (fun _ _ _ hp => by
          rw [hpc] at hp
          cases hp) lane
        rw [hnone] at hle
        exact ⟨fun j hown hlane => hreach j (hnamed j hown hlane), (hwant lane).trans hle⟩
    | _ => cases hwho
  · exact h.keep (s.move_pc_of_ne _ _ hne.symm) rfl hreach fun lane hle => (hwant lane).trans hle

theorem told_init : Told c ⟨Mem.init c, fun _ => none⟩ := by
  refine told_between (fun _ hat => absurd hat.symm (Option.some_ne_none _)) fun lane hl => ?_
  rw [init_pilled] at hl
  cases hl

/-- **Whom the stop has told, in a run that takes no pill but those to spare.** -/
theorem told_of_execution (e : Execution c)
    (hspared : ∀ k l, e.labels[k]? = some l → Spared c (e.state k) l.thread) :
    ∀ k ≤ e.labels.length, Told c (e.state k) := by
  have hplaced := placed_of_execution e
  refine Program.invariant_of_run e told_init (fun s t op h => told_call h) ?_
  intro k t act pc m' nx hl h hpc hadv
  have hk : k < e.labels.length := LabelledSystem.Execution.lt_length hl
  exact told_step h (hplaced k hk.le) hpc hadv (hspared k _ hl)

/-! ## A pill read while a job is in hand -/

/-- Thread `i` is about to read a pill off its own channel, with `job` in hand. -/
structure ReadsHolding (s : State) (i : Nat) (job : Job) : Prop where
  at_recv : s.pc (.thread i) = some (.thread i (.leaveRecv job))
  pill : (s.mem.recs i).channel.head? = some .pill

/-- It has read it: it is about to write it in its record, or has. -/
def Read (s : State) (i : Nat) (job : Job) : Prop :=
  s.pc (.thread i) = some (.thread i (.leavePill job)) ∨ (s.mem.recs i).pill = true

theorem read_step {s : State} {t : Who} {pc : Pc} {m' : Mem} {nx : Next Pc Res} {i : Nat} {job : Job}
    (h : Read s i job) (hp : Placed c s) (hpc : s.pc t = some pc)
    (hadv : advance c s.mem pc = (m', nx)) : Read (s.move t m' nx.point) i job := by
  have hmem : m' = (advance c s.mem pc).1 := (congrArg Prod.fst hadv).symm
  by_cases hown : ∃ step, pc = .thread i step
  · obtain ⟨step, rfl⟩ := hown
    obtain ⟨rfl, -, hok⟩ := hp.thread t i step hpc
    refine Or.inr ?_
    rw [Threads.State.move_mem, hmem]
    show ((threadStep c s.mem i step).1.recs i).pill = true
    rcases h with hat | hpill
    · rw [hpc] at hat
      cases hat
      simp [threadStep]
    · rw [(thread_rec (c := c) s.mem i step).2, hpill]
      rintro job rfl
      cases hok.pill hpill
  · have hkept : Kept s.mem m' i := by
      rw [hmem]
      exact advance_kept s.mem pc i fun step heq => hown ⟨step, heq⟩
    rcases h with hat | hpill
    · refine Or.inl ?_
      rwa [s.move_pc_of_ne]
      rintro rfl
      rw [hpc] at hat
      exact hown ⟨_, Option.some.inj hat⟩
    · exact Or.inr (hkept.pill.trans hpill)

/-- From the step that reads the pill on, it is read. -/
theorem read_later {e : Execution c} {i k : Nat} {job : Job}
    (hl : e.labels[k]? = some ⟨.thread i, .go⟩) (h : ReadsHolding (e.state k) i job) {n : Nat}
    (hkn : k < n) (hn : n ≤ e.labels.length) : Read (e.state n) i job := by
  have hplaced := placed_of_execution e
  refine LabelledSystem.Execution.stays (P := fun s => Read s i job) (show k + 1 ≤ n from hkn) hn ?_ ?_
  · rcases Program.step_of_roles hl with ⟨op, hact, -⟩ | ⟨pc, m', nx, hpc, hadv, hs, -⟩
    · cases hact
    · rw [h.at_recv] at hpc
      cases hpc
      refine Or.inl ?_
      rw [hs, (e.state k).move_pc_self, show nx = (threadStep c (e.state k).mem i (.leaveRecv job)).2
        from (congrArg Prod.snd hadv).symm]
      have hhead := h.pill
      simp only [threadStep]
      split
      · simp_all
      · simp_all
      · rfl
  · intro m l _ hmn hlm hread
    obtain ⟨t, act⟩ := l
    rcases Program.step_of_roles hlm with ⟨op, -, hpc, -, hs⟩ | ⟨pc, m', nx, hpc, hadv, hs, -⟩
    · rw [hs]
      refine hread.imp_left fun hat => ?_
      rwa [(e.state m).move_pc_of_ne]
      rintro rfl
      rw [hpc] at hat
      cases hat
    · rw [hs]
      exact read_step hread (hplaced m (by omega)) hpc hadv

/-- The call it was read in returns the job that was in hand. -/
theorem holding_returns {e : Execution c} {i k : Nat} {job : Job}
    (hl : e.labels[k]? = some ⟨.thread i, .go⟩) (h : ReadsHolding (e.state k) i job) {j : Nat}
    {res : Res} (hret : Threads.ReturnsAt (Program.free e) (.thread i) k j res) :
    res = .job (some job) := by
  have hat : (e.state (k + 1)).pc (.thread i) = some (.thread i (.leavePill job)) := by
    rcases Program.step_of_roles hl with ⟨op, hact, -⟩ | ⟨pc, m', nx, hpc, hadv, hs, -⟩
    · cases hact
    · rw [h.at_recv] at hpc
      cases hpc
      rw [hs, (e.state k).move_pc_self, show nx = (threadStep c (e.state k).mem i (.leaveRecv job)).2
        from (congrArg Prod.snd hadv).symm]
      have hhead := h.pill
      simp only [threadStep]
      split <;> simp_all [Next.point]
  have hlater := Threads.pc_of_inner (e := Program.free e)
    (Q := fun pc => pc = .thread i (.leavePill job) ∨ pc = .thread i (.leaveStore job))
    ⟨_, hat, Or.inl rfl⟩ ?_ hret.inner hret.lt (Nat.le_refl j) (Nat.le_of_lt hret.lt_length)
  · obtain ⟨pc, hpc, hq⟩ := hlater
    obtain ⟨pc', hpc', hadv⟩ := hret.step
    rw [hpc] at hpc'
    cases hpc'
    rcases hq with rfl | rfl
    · cases congrArg Prod.snd hadv
    · cases congrArg Prod.snd hadv
      rfl
  · rintro m pc m' pc' (rfl | rfl) hadv
    · cases congrArg Prod.snd hadv
      exact Or.inr rfl
    · cases congrArg Prod.snd hadv

/-- A thread at the start of a look, with the pill in its record. -/
structure AtPill (s : State) (i : Nat) : Prop where
  pill : (s.mem.recs i).pill = true
  serving : s.mem.life i = .serving
  looking : ∃ look, s.pc (.thread i) = some (.thread i (.enter look)) ∨
    s.pc (.thread i) = some (.thread i (.pill look))

/-- **A pill that was read is the answer to the next call.** -/
theorem read_answered {e : Execution c} {i m : Nat} {op : Op} {job : Job}
    (hread : Read (e.state m) i job) (hl : e.labels[m]? = some ⟨.thread i, .call op⟩)
    (hop : op ≠ .leavePool i) (hlife : (e.state m).mem.life i = .serving) {j : Nat} {res : Res}
    (hret : Threads.ReturnsAt (Program.free e) (.thread i) m j res) : res = .job (some .stop) := by
  have hplaced := placed_of_execution e
  have hown : ∀ n ≤ e.labels.length, ((e.state n).mem.recs i).pill = true → c.own i = true := by
    intro n hn hpill
    by_contra hnot
    rw [((hplaced n hn).record i).none (by simpa using hnot) |>.2] at hpill
    cases hpill
  have hstart : AtPill (e.state (m + 1)) i := by
    rcases Program.step_of_roles hl with ⟨op', hact, hpc, hmay, hs⟩ | ⟨pc, m', nx, -, -, -, hact⟩
    · cases hact
      have hpill : ((e.state m).mem.recs i).pill = true := by
        rcases hread with hat | hpill
        · rw [hpc] at hat
          cases hat
        · exact hpill
      have hwho : op.who = .thread i := by
        simp only [may, Bool.and_eq_true, beq_iff_eq] at hmay
        exact hmay.1
      rw [hs]
      refine ⟨hpill, hlife, ?_⟩
      rw [(e.state m).move_pc_self]
      cases op with
      | nextJob i' | tryNextJob i' =>
        cases hwho
        exact ⟨_, Or.inl rfl⟩
      | leavePool i' =>
        cases hwho
        exact absurd rfl hop
      | _ => cases hwho
    · cases nx <;> cases hact
  have hat : AtPill (e.state j) i := by
    refine LabelledSystem.Execution.stays (P := fun s => AtPill s i) (show m + 1 ≤ j from hret.lt)
      (Nat.le_of_lt hret.lt_length) hstart ?_
    intro n l hmn hnj hln h
    have hn : n ≤ e.labels.length := Nat.le_of_lt (LabelledSystem.Execution.lt_length hln)
    obtain ⟨t, act⟩ := l
    rcases Program.step_of_roles hln with ⟨op', -, hpc, -, hs⟩ | ⟨pc, m', nx, hpc, hadv, hs, hact⟩
    · rw [hs]
      refine ⟨h.pill, h.serving, ?_⟩
      rw [(e.state n).move_pc_of_ne]
      · exact h.looking
      · rintro rfl
        obtain ⟨look, hlook⟩ := h.looking
        rw [hpc] at hlook
        rcases hlook with hlook | hlook <;> cases hlook
    · have hmem : m' = (advance c (e.state n).mem pc).1 := (congrArg Prod.fst hadv).symm
      have hnext : nx = (advance c (e.state n).mem pc).2 := (congrArg Prod.snd hadv).symm
      rcases eq_or_ne t (.thread i) with rfl | hne
      · -- its own step is an inner one
        have hgo := hret.inner n act (by omega) hnj hln
        obtain ⟨look, hlook⟩ := h.looking
        rw [hpc] at hlook
        rcases hlook with heq | heq
        · cases heq
          have hserving := h.serving
          simp only [advance, threadStep, hserving, if_true] at hmem hnext
          rw [hs, hmem, hnext]
          exact ⟨h.pill, h.serving, look, Or.inr ((e.state n).move_pc_self _ _ _)⟩
        · cases heq
          simp only [advance, threadStep, hown n hn h.pill, h.pill] at hnext
          rw [hnext, hgo] at hact
          cases hact
      · have hkept : Kept (e.state n).mem m' i := by
          rw [hmem]
          refine advance_kept _ pc i fun step heq => hne ?_
          exact ((hplaced n hn).thread t i step (heq ▸ hpc)).1
        rw [hs]
        refine ⟨hkept.pill.trans h.pill, hkept.life.trans h.serving, ?_⟩
        rw [(e.state n).move_pc_of_ne _ _ hne.symm]
        exact h.looking
  obtain ⟨pc, hpc, hadv⟩ := hret.step
  obtain ⟨look, hlook⟩ := hat.looking
  have hnext := (congrArg Prod.snd hadv).symm
  have hpc' : (e.state j).pc (.thread i) = some pc := hpc
  rw [hpc'] at hlook
  rcases hlook with heq | heq
  · cases heq
    change Next.ret res = (threadStep c (e.state j).mem i (.enter look)).2 at hnext
    simp only [threadStep, hat.serving, if_true] at hnext
    cases hnext
  · cases heq
    change Next.ret res = (threadStep c (e.state j).mem i (.pill look)).2 at hnext
    have hj : j ≤ e.labels.length := Nat.le_of_lt hret.lt_length
    simp only [threadStep, hown j hj hat.pill, hat.pill] at hnext
    cases hnext
    rfl

/-! ## No thread is left waiting -/

/-- The steps at which a thread blocks in `next_job`. -/
def Step.blocks : Step → Bool
  | .block | .leaveRecv _ | .sockRecv => true
  | _ => false

/-- A pill is left where thread `i` blocks: on its own channel, or on its lane's socket if it has
none. -/
def PillLeft (c : Setup) (m : Mem) (i : Nat) : Prop :=
  if c.own i then .pill ∈ (m.recs i).channel else .pill ∈ (m.lanes (c.lane i)).socket

/-- The stop has put every pill of the lane where it goes. -/
def PillsPut (s : State) (lane : Nat) : Prop := lane ∈ s.mem.pilled ∧ leftToPut s lane = 0

theorem pillLeft_of_blocked {s : State} {i : Nat} {step : Step} (h : Told c s) (hp : Placed c s)
    (hpc : s.pc (.thread i) = some (.thread i step)) (hblocks : step.blocks = true)
    (hput : PillsPut s (c.lane i)) : PillLeft c s.mem i := by
  have ⟨_, hlt, hok⟩ := hp.thread _ i step hpc
  have hserving : s.mem.life i = .serving := by
    refine hok.serving ?_
    cases step with
    | block | leaveRecv | sockRecv => rfl
    | _ => cases hblocks
  have ⟨hnamed, hle⟩ := h.put (c.lane i) (Or.inl hput.1)
  unfold PillLeft
  split
  · -- the pill sent to it by name is on its channel: it has not read one
    rename_i hown
    rcases hnamed i hown rfl with hchannel | hpill | hlife | ⟨step', hpc', hholds⟩
    · exact hchannel
    · have howes := hok.pill hpill
      cases step with
      | block | leaveRecv | sockRecv => cases howes
      | _ => cases hblocks
    · exact absurd hserving hlife
    · rw [hpc] at hpc'
      cases hpc'
      cases step with
      | block | leaveRecv | sockRecv => cases hholds
      | _ => cases hblocks
  · -- it wants one of the lane's, and there are as many
    rename_i hown
    have hwanted : wanted c s (c.lane i) i = true := by
      refine wanted_iff.mpr ⟨rfl, by simpa using hown, hserving, ?_⟩
      rw [holdsLane_of_pc hpc]
      cases step with
      | block | leaveRecv | sockRecv => rfl
      | _ => cases hblocks
    have hpos := wanting_pos hlt hwanted
    rw [hput.2] at hle
    exact List.count_pos_iff.mp (show 0 < pillsOn s.mem (c.lane i) by omega)

/-- The lanes of a pool's threads are those the stop goes through. -/
theorem mem_stopOrder {i : Nat} (hi : i < c.threads.length) : c.lane i ∈ c.stopOrder := by
  have hmem : c.threads[i] ∈ c.threads := List.getElem_mem hi
  have hlane : c.lane i = c.threads[i].1 := by
    unfold Setup.lane
    rw [List.getD_eq_getElem _ _ hi]
  have hlt := c.dealt _ hmem
  unfold Setup.stopOrder
  rw [List.mem_filter, List.mem_append, List.mem_range'_1, List.mem_singleton, hlane]
  refine ⟨by omega, decide_eq_true ?_⟩
  exact List.length_pos_iff_exists_mem.mpr ⟨_, List.mem_filter.mpr ⟨hmem, by simp⟩⟩

/-- When the stop returns it has put the pills of every lane it had to go through. -/
theorem pilled_of_return {m : Mem} {pc : Pc} {m' : Mem} {res : Res}
    (hstops : pc.stops = true) (htodo : ∀ lane ∈ c.stopOrder, lane ∈ m.pilled ∨ lane ∈ pc.todo)
    (hadv : advance c m pc = (m', .ret res)) : ∀ lane ∈ c.stopOrder, lane ∈ m'.pilled := by
  have hmem : m' = (advance c m pc).1 := (congrArg Prod.fst hadv).symm
  have hnext : Next.ret res = (advance c m pc).2 := (congrArg Prod.snd hadv).symm
  have hputNext : ∀ (m₁ : Mem) lane rest left, m₁.pilled = m.pilled → pc.todo = lane :: rest →
      m' = (putNext m₁ lane rest left).1 → Next.ret res = (putNext m₁ lane rest left).2 →
      ∀ l ∈ c.stopOrder, l ∈ m'.pilled := by
    intro m₁ lane rest left hpilled htodo' hmem hnext l hl
    cases left with
    | succ left => cases hnext
    | zero =>
      cases rest with
      | cons next rest => cases hnext
      | nil =>
        rw [hmem]
        show l ∈ lane :: m₁.pilled
        rw [hpilled]
        have hl' := htodo l hl
        rw [htodo', List.mem_singleton] at hl'
        exact List.mem_cons.mpr hl'.symm
  have hstopScan : ∀ (m₁ : Mem) lane rest t pilled, m₁.pilled = m.pilled → pc.todo = lane :: rest →
      m' = (stopScan c m₁ lane rest t pilled).1 → Next.ret res = (stopScan c m₁ lane rest t pilled).2 →
      ∀ l ∈ c.stopOrder, l ∈ m'.pilled := by
    intro m₁ lane rest t pilled hpilled htodo' hmem hnext
    unfold stopScan at hmem hnext
    split at hnext
    · cases hnext
    · rename_i hge
      rw [if_neg hge] at hmem
      exact hputNext _ _ _ _ hpilled htodo' hmem hnext
  cases pc with
  | stopping rest =>
    cases rest with
    | cons lane rest => cases hnext
    | nil =>
      intro l hl
      rw [hmem]
      exact (htodo l hl).resolve_right nofun
  | stop st =>
    cases st with
    | scan lane rest t pilled =>
      simp only [advance, stopStep] at hmem hnext
      split at hnext
      · cases hnext
      · rename_i hnot
        rw [if_neg hnot] at hmem
        exact hstopScan _ _ _ _ _ rfl rfl hmem hnext
    | pill lane rest t pilled =>
      exact hstopScan (m.setRec t fun r => { r with channel := r.channel ++ [Own.pill] }) _ _ _ _ rfl rfl
        hmem hnext
    | put lane rest left =>
      simp only [advance, stopStep] at hmem hnext
      split at hnext
      · rename_i hfits
        rw [if_pos hfits] at hmem
        exact hputNext (m.setLane lane fun l => { l with socket := l.socket ++ [Datagram.pill] }) _ _ _ rfl
          rfl hmem hnext
      · cases hnext
  | _ => cases hstops

/-- **Stopping a pool reaches every thread**, in a run in which a thread with a channel takes no pill
off its lane's socket but one to spare. Then, once the stop has put the pills of a lane, no thread of
it is blocked without a pill where it reads, and when the stop returns it has put those of every
thread's lane. In every run, a pill read with a job in hand is answered at the next call, after that
job. -/
theorem stop_reaches_unless_taken (e : Execution c) :
    ((∀ k l, e.labels[k]? = some l → Spared c (e.state k) l.thread) →
      (∀ k ≤ e.labels.length, ∀ i step,
        (e.state k).pc (.thread i) = some (.thread i step) → step.blocks = true →
        PillsPut (e.state k) (c.lane i) → PillLeft c (e.state k).mem i) ∧
      ∀ k res, e.labels[k]? = some ⟨.stopper, .ret res⟩ → ∀ i < c.threads.length,
        PillsPut (e.state (k + 1)) (c.lane i)) ∧
    ∀ k i job, e.labels[k]? = some ⟨.thread i, .go⟩ → ReadsHolding (e.state k) i job →
      (∀ j res, Threads.ReturnsAt (Program.free e) (.thread i) k j res → res = .job (some job)) ∧
      ∀ m op, k < m → e.labels[m]? = some ⟨.thread i, .call op⟩ → op ≠ .leavePool i →
        (e.state m).mem.life i = .serving →
        ∀ j res, Threads.ReturnsAt (Program.free e) (.thread i) m j res → res = .job (some .stop) := by
  have hplaced := placed_of_execution e
  refine ⟨fun hspared => ⟨?_, ?_⟩, ?_⟩
  · intro k hk i step hpc hblocks hput
    exact pillLeft_of_blocked (told_of_execution e hspared k hk) (hplaced k hk) hpc hblocks hput
  · intro k res hl i hi
    have hk : k ≤ e.labels.length := Nat.le_of_lt (LabelledSystem.Execution.lt_length hl)
    have htold := told_of_execution e hspared k hk
    rcases Program.step_of_roles hl with ⟨op, hact, -⟩ | ⟨pc, m', nx, hpc, hadv, hs, hact⟩
    · cases hact
    · cases nx with
      | goto pc' => cases hact
      | ret res' =>
        rw [hs]
        refine ⟨?_, leftToPut_none (fun lane rest left hp => ?_) _⟩
        · exact pilled_of_return (htold.stops pc hpc) (htold.todo pc hpc) hadv _ (mem_stopOrder hi)
        · rw [(e.state k).move_pc_self] at hp
          cases hp
  · intro k i job hl h
    refine ⟨fun j res hret => holding_returns hl h hret, ?_⟩
    intro m op hkm hm hop hlife j res hret
    have hread := read_later hl h hkm (Nat.le_of_lt (LabelledSystem.Execution.lt_length hm))
    exact read_answered hread hm hop hlife hret

/-! ### A pill taken that was not to spare -/

/-- One lane with two threads: the first has a channel, the second is past the reservation. -/
def pastReservation : Setup where
  elastic := true
  parallel := false
  spin := 0
  lanes := 1
  reserved := 1
  threads := [(0, true), (0, true)]
  fits _ _ := true
  dealt := by decide

/-- The second thread parks on the lane's socket. The first polls its own channel, and then the stop
puts its pills: the first takes the second's off the lane's socket. -/
def takenOffTheLane : List (Threads.Label Who Op Res) :=
  [⟨.clock, .call (.tick 200000)⟩, ⟨.clock, .ret .done⟩, ⟨.thread 1, .call (.nextJob 1)⟩] ++
    List.replicate 17 ⟨.thread 1, .go⟩ ++
    [⟨.clock, .call (.tick 400000)⟩, ⟨.clock, .ret .done⟩, ⟨.thread 0, .call (.nextJob 0)⟩] ++
    List.replicate 6 ⟨.thread 0, .go⟩ ++
    [⟨.stopper, .call .stopAndJoin⟩, ⟨.stopper, .go⟩, ⟨.stopper, .go⟩, ⟨.stopper, .go⟩,
      ⟨.stopper, .ret .done⟩, ⟨.thread 0, .ret (.job (some .stop))⟩]

theorem takenOffTheLane_runs : (((program pastReservation).systemOf (may pastReservation)
    (Mem.init pastReservation)).run ((program pastReservation).systemOf (may pastReservation)
      (Mem.init pastReservation)).init takenOffTheLane).isSome := by
  decide

/-- **A thread blocked with no pill left**: every pill was put, and the one its lane's socket held
for it is taken. -/
theorem blocked_without_a_pill : ¬ ∀ (c : Setup) (e : Execution c), ∀ k ≤ e.labels.length, ∀ i step,
    (e.state k).pc (.thread i) = some (.thread i step) → step.blocks = true →
      PillsPut (e.state k) (c.lane i) → PillLeft c (e.state k).mem i := by
  intro h
  have hleft := h pastReservation (.ofRun _ takenOffTheLane takenOffTheLane_runs) 35 (by decide) 1
    .sockRecv (by rfl) rfl ⟨by decide, by decide⟩
  revert hleft
  unfold PillLeft
  decide

end Pool

end Offload

end MojoHttp
