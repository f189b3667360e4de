import MojoHttp.AcceptShare

/-!
# Which worker takes a connection (`accept_share.mojo`)

`pick` reads the words of the siblings one at a time and names the least loaded one that would
take a connection at once; `pick_for_leaver` asks without a load of its own, and the second time
takes a busy sibling too.

* **`leastLoaded_chosen`** — the scan answers the worker itself or a sibling that fits, with the
  least load below the worker's own.
* **`pickForLeaver_self`** — a leaver that keeps the connection has read of no started sibling
  with a load below `_ANY_LOAD`.

A scan reads each word once, so what it read is a line of words for each sibling, whatever the
siblings stored meanwhile. The words are the page's own, of 64 bits.
-/

namespace MojoHttp.AcceptShare

/-! ## The scan -/

/-- `ACCEPT_SHARE_BUSY_NS` and `_ANY_LOAD`. -/
def busyNs : Int64 := 2000000
def anyLoad : Int64 := 4611686018427387904

/-- What a scan read of one worker's line. -/
structure Words where
  state : Int64
  active : Int64
  pending : Int64

namespace Words

/-- The advertised load: open connections plus those in flight. -/
def load (l : Words) : Int64 := l.active + l.pending

/-- The worker has started and has not left. -/
def Open (l : Words) : Prop := ¬ (l.state.toInt = stateLeft ∨ l.state.toInt = stateNotStarted)

/-- The worker is inside a pass for longer than the bound. -/
def Busy (now : Int64) (l : Words) : Prop := 0 < l.state ∧ busyNs < now - l.state

instance (l : Words) : Decidable l.Open := inferInstanceAs (Decidable (¬ _))
instance (now : Int64) (l : Words) : Decidable (l.Busy now) := inferInstanceAs (Decidable (_ ∧ _))

/-- The worker would take the connection. -/
def Fits (now : Int64) (takeBusy : Bool) (l : Words) : Prop :=
  l.Open ∧ (takeBusy = true ∨ ¬ l.Busy now)

end Words

/-- One sibling of the scan, behind the best so far and its load. -/
def consider (me : Nat) (read : Nat → Words) (now : Int64) (takeBusy : Bool) (best : Nat × Int64)
    (i : Nat) : Nat × Int64 :=
  if i = me then best
  else if ¬ (read i).Open then best
  else if takeBusy = false ∧ (read i).Busy now then best
  else if (read i).load < best.2 then (i, (read i).load)
  else best

/-- The order of the scan: every worker once, from the rotation counter's. -/
def rotation (workers : Nat) (counter : Int64) : List Nat :=
  let start := (counter.toInt % workers).toNat
  (List.range workers).map fun k => (start + k) % workers

/-- `_least_loaded`, with what it reads: the rotation counter and the lines. -/
def leastLoaded (workers me : Nat) (counter : Int64) (read : Nat → Words) (ownLoad now : Int64)
    (takeBusy : Bool) : Nat :=
  ((rotation workers counter).foldl (consider me read now takeBusy) (me, ownLoad)).1

/-- The load `pick` compares with: the live count of connections, and the worker's own `pending`. -/
def ownLoad (me : Nat) (read : Nat → Words) (ownActive : Int64) : Int64 :=
  ownActive + (read me).pending

def pick (workers me : Nat) (counter : Int64) (read : Nat → Words) (ownActive now : Int64) : Nat :=
  if active workers me then leastLoaded workers me counter read (ownLoad me read ownActive) now false
  else me

/-- `pick_for_leaver`, with what its first and its second scan read. -/
def pickForLeaver (workers me : Nat) (counter counter' : Int64) (read read' : Nat → Words)
    (now : Int64) : Nat :=
  if active workers me then
    let target := leastLoaded workers me counter read anyLoad now false
    if target = me then leastLoaded workers me counter' read' anyLoad now true else target
  else me

/-! ## What it answers -/

/-- A sibling of the scan that fits. -/
def Candidate (workers me : Nat) (read : Nat → Words) (now : Int64) (takeBusy : Bool) (i : Nat) :
    Prop :=
  i < workers ∧ i ≠ me ∧ (read i).Fits now takeBusy

/-- What a scan may answer: the worker itself, when no candidate's load is below its own, or a
candidate with the least load, which is below its own. -/
def Chosen (workers me : Nat) (read : Nat → Words) (own now : Int64) (takeBusy : Bool) (r : Nat) :
    Prop :=
  (r = me ∧ ∀ i, Candidate workers me read now takeBusy i → own ≤ (read i).load) ∨
    (Candidate workers me read now takeBusy r ∧ (read r).load < own ∧
      ∀ i, Candidate workers me read now takeBusy i → (read r).load ≤ (read i).load)

theorem mem_rotation {workers i : Nat} (counter : Int64) :
    i ∈ rotation workers counter ↔ i < workers := by
  simp only [rotation, List.mem_map, List.mem_range]
  constructor
  · rintro ⟨k, hk, rfl⟩
    exact Nat.mod_lt _ (by omega)
  · intro hi
    have hstart : (counter.toInt % workers).toNat < workers := by
      have := Int.emod_lt_of_pos counter.toInt (show (0 : Int) < workers by omega)
      omega
    generalize (counter.toInt % workers).toNat = start at hstart
    refine ⟨(i + workers - start) % workers, Nat.mod_lt _ (by omega), ?_⟩
    rw [Nat.add_mod_mod, show start + (i + workers - start) = i + workers from by omega,
      Nat.add_mod_right, Nat.mod_eq_of_lt hi]

variable {me : Nat} {read : Nat → Words} {now : Int64} {takeBusy : Bool}

/-- One sibling: it takes the place of the best if it fits and its load is below. -/
theorem consider_eq (best : Nat × Int64) (i : Nat) :
    (consider me read now takeBusy best i = best ∧
      (i ≠ me → (read i).Fits now takeBusy → best.2 ≤ (read i).load)) ∨
    (consider me read now takeBusy best i = (i, (read i).load) ∧ i ≠ me ∧
      (read i).Fits now takeBusy ∧ (read i).load < best.2) := by
  unfold consider
  split
  · rename_i hme
    exact .inl ⟨rfl, fun h => absurd hme h⟩
  split
  · rename_i hopen
    exact .inl ⟨rfl, fun _ h => absurd h.1 hopen⟩
  split
  · rename_i hbusy
    refine .inl ⟨rfl, fun _ h => ?_⟩
    rcases h.2 with htake | hidle
    · rw [hbusy.1] at htake
      cases htake
    · exact absurd hbusy.2 hidle
  split
  · rename_i hme hopen hbusy hload
    refine .inr ⟨rfl, hme, ⟨not_not.mp hopen, ?_⟩, hload⟩
    cases takeBusy with
    | true => exact .inl rfl
    | false => exact .inr fun h => hbusy ⟨rfl, h⟩
  · rename_i hload
    exact .inl ⟨rfl, fun _ _ => Int64.not_lt.mp hload⟩

/-- **The best of a scan**: the one it started with, or a sibling of the scan that fits; and no
sibling that fits has a load below the best one's. -/
theorem foldl_consider (is : List Nat) (best : Nat × Int64) :
    let r := is.foldl (consider me read now takeBusy) best
    (r = best ∨ ∃ i ∈ is, i ≠ me ∧ (read i).Fits now takeBusy ∧ r = (i, (read i).load) ∧
      (read i).load < best.2) ∧
    ∀ i ∈ is, i ≠ me → (read i).Fits now takeBusy → r.2 ≤ (read i).load := by
  induction is generalizing best with
  | nil => exact ⟨.inl rfl, fun _ h => nomatch h⟩
  | cons i is ih =>
    obtain ⟨hfrom, hleast⟩ := ih (consider me read now takeBusy best i)
    rw [List.foldl_cons]
    generalize hr : is.foldl (consider me read now takeBusy)
      (consider me read now takeBusy best i) = r at hfrom hleast
    have hle : r.2 ≤ (consider me read now takeBusy best i).2 := by
      rcases hfrom with h | ⟨j, -, -, -, h, hlt⟩
      · rw [h]
        exact Int64.le_refl _
      · rw [h]
        exact Int64.le_of_lt hlt
    rcases @consider_eq me read now takeBusy best i with ⟨hsame, hnot⟩ | ⟨hnew, hne, hfits, hlt⟩
    · rw [hsame] at hfrom hle
      refine ⟨?_, ?_⟩
      · rcases hfrom with h | ⟨j, hj, hj'⟩
        · exact .inl h
        · exact .inr ⟨j, List.mem_cons_of_mem _ hj, hj'⟩
      · intro j hj hjne hjfits
        rcases List.mem_cons.mp hj with rfl | hj
        · exact Int64.le_trans hle (hnot hjne hjfits)
        · exact hleast j hj hjne hjfits
    · rw [hnew] at hfrom hle
      refine ⟨.inr ?_, ?_⟩
      · rcases hfrom with h | ⟨j, hj, hjne, hjfits, h, hjlt⟩
        · exact ⟨i, List.mem_cons_self, hne, hfits, h, hlt⟩
        · exact ⟨j, List.mem_cons_of_mem _ hj, hjne, hjfits, h, Int64.lt_trans hjlt hlt⟩
      · intro j hj hjne hjfits
        rcases List.mem_cons.mp hj with rfl | hj
        · exact hle
        · exact hleast j hj hjne hjfits

variable {workers : Nat}

/-- **The scan answers the worker itself or the least loaded sibling that fits.** -/
theorem leastLoaded_chosen (counter own : Int64) :
    Chosen workers me read own now takeBusy
      (leastLoaded workers me counter read own now takeBusy) := by
  obtain ⟨hfrom, hleast⟩ := @foldl_consider me read now takeBusy (rotation workers counter) (me, own)
  unfold leastLoaded
  rcases hfrom with h | ⟨i, hi, hne, hfits, h, hlt⟩
  · rw [h] at hleast ⊢
    exact .inl ⟨rfl, fun i hi => hleast i ((mem_rotation counter).mpr hi.1) hi.2.1 hi.2.2⟩
  · rw [h] at hleast ⊢
    exact .inr ⟨⟨(mem_rotation counter).mp hi, hne, hfits⟩, hlt,
      fun j hj => hleast j ((mem_rotation counter).mpr hj.1) hj.2.1 hj.2.2⟩

/-- Where accepts are not shared, a worker has no sibling. -/
theorem no_candidate (hme : me < workers) (h : ¬ active workers me = true) {i : Nat} :
    ¬ Candidate workers me read now takeBusy i := by
  rintro ⟨hi, hne, -⟩
  simp only [active, hme, decide_true, Bool.true_and, decide_eq_true_eq] at h
  omega

/-- **`pick` answers this worker or a willing sibling with the least load, below this worker's.** -/
theorem pick_chosen (hme : me < workers) (counter ownActive : Int64) :
    Chosen workers me read (ownLoad me read ownActive) now false
      (pick workers me counter read ownActive now) := by
  unfold pick
  split
  · exact leastLoaded_chosen ..
  · rename_i hactive
    exact .inl ⟨rfl, fun i hi => absurd hi (no_candidate hme hactive)⟩

/-- **A leaver keeps the connection when its second scan read of no started sibling** with a load
below `_ANY_LOAD`. -/
theorem pickForLeaver_self {read' : Nat → Words} (hme : me < workers) {counter counter' : Int64}
    (h : pickForLeaver workers me counter counter' read read' now = me) {i : Nat} (hi : i < workers)
    (hne : i ≠ me) (hload : (read' i).load < anyLoad) : ¬ (read' i).Open := by
  intro hopen
  have hcandidate : Candidate workers me read' now true i := ⟨hi, hne, hopen, .inl rfl⟩
  unfold pickForLeaver at h
  split at h
  · have hsecond : leastLoaded workers me counter' read' anyLoad now true = me := by
      dsimp only at h
      split at h
      · exact h
      · rename_i hfirst
        exact absurd h hfirst
    rcases @leastLoaded_chosen me read' now true workers counter' anyLoad with
      ⟨-, hnone⟩ | ⟨hself, -⟩
    · exact Int64.not_lt.mpr (hnone i hcandidate) hload
    · exact hself.2.1 hsecond
  · rename_i hactive
    exact no_candidate hme hactive hcandidate

end MojoHttp.AcceptShare
