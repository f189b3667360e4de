import MojoHttp.Sse.Subscriptions

/-!
# A journal hides no gap (`sse/replay.mojo`)

Numbered frames arrive in any order. What a journal keeps of them, and why what it does not keep is not
missed by a subscriber that it catches up.

* **`sorted_insertById`** — an arrival goes where its id belongs.
* **`ReplayJournal.Sound.apply`** — every arrival above the floor is kept, whatever moves the floor.
* **`ReplayJournal.hides_no_gap`** — a subscriber is caught up with all that it missed, or with nothing.
-/

namespace MojoHttp

/-! ## Where an arrival goes -/

def SortedById (entries : List Recorded) : Prop := entries.Pairwise fun a b => a.id < b.id

/-- The order a journal keeps whatever ids arrive, one id more than once. -/
def OrderedById (entries : List Recorded) : Prop := entries.Pairwise fun a b => a.id ≤ b.id

theorem SortedById.ordered {entries : List Recorded} (h : SortedById entries) : OrderedById entries :=
  List.Pairwise.imp Int.le_of_lt h

/-- The entries up to the last that is not above `id`, and those behind it. -/
theorem split_journal (id : Int) (journal : List Recorded) :
    journal = (journal.reverse.dropWhile fun kept => kept.id > id).reverse ++
      (journal.reverse.takeWhile fun kept => kept.id > id).reverse := by
  rw [← List.reverse_append, List.takeWhile_append_dropWhile, List.reverse_reverse]

/-- The entries above the arrival's id stay behind it. -/
theorem insertById_eq (entry : Recorded) (journal : List Recorded) :
    insertById entry journal =
      (journal.reverse.dropWhile fun kept => kept.id > entry.id).reverse ++
        entry :: (journal.reverse.takeWhile fun kept => kept.id > entry.id).reverse := by
  have hsplit := split_journal entry.id journal
  have hpos : journal.length - (journal.reverse.takeWhile fun kept => kept.id > entry.id).length =
      (journal.reverse.dropWhile fun kept => kept.id > entry.id).reverse.length := by
    have hlen := congrArg List.length hsplit
    rw [List.length_append, List.length_reverse, List.length_reverse] at hlen
    rw [List.length_reverse]
    omega
  unfold insertById
  dsimp only
  rw [hpos]
  generalize (journal.reverse.dropWhile fun kept => kept.id > entry.id).reverse = below at hsplit ⊢
  generalize (journal.reverse.takeWhile fun kept => kept.id > entry.id).reverse = above at hsplit ⊢
  rw [hsplit, List.take_left, List.drop_left]

theorem mem_insertById {entry e : Recorded} {journal : List Recorded} :
    e ∈ insertById entry journal ↔ e = entry ∨ e ∈ journal := by
  have hsplit := split_journal entry.id journal
  rw [insertById_eq]
  generalize (journal.reverse.dropWhile fun kept => kept.id > entry.id).reverse = below at hsplit ⊢
  generalize (journal.reverse.takeWhile fun kept => kept.id > entry.id).reverse = above at hsplit ⊢
  rw [hsplit, List.mem_append, List.mem_append, List.mem_cons]
  exact or_left_comm

/-- An arrival goes behind every entry up to its id, and before the others. -/
theorem around_insertById (entry : Recorded) {journal : List Recorded} (hordered : OrderedById journal) :
    ∃ below above, journal = below ++ above ∧ insertById entry journal = below ++ entry :: above ∧
      (∀ e ∈ below, e.id ≤ entry.id) ∧ ∀ e ∈ above, entry.id < e.id := by
  have hsplit := split_journal entry.id journal
  have hparts := hordered
  rw [OrderedById, hsplit, List.pairwise_append] at hparts
  refine ⟨_, _, hsplit, insertById_eq entry journal, fun e he => ?_, fun e he => ?_⟩
  · -- the last of them is not above, and the others are not above it
    cases hdrop : journal.reverse.dropWhile fun kept => kept.id > entry.id with
    | nil =>
      rw [hdrop] at he
      cases he
    | cons last rest =>
      have hlast : ¬ last.id > entry.id := by
        have hhead := List.head?_dropWhile_not (fun kept : Recorded => decide (kept.id > entry.id))
          journal.reverse
        rw [hdrop] at hhead
        simpa using hhead
      rw [hdrop, List.reverse_cons] at he hparts
      rcases List.mem_append.mp he with he | he
      · have hle := (List.pairwise_append.mp hparts.1).2.2 e he last (List.mem_singleton_self last)
        omega
      · rw [List.mem_singleton.mp he]
        omega
  · have hp := List.mem_takeWhile_imp (List.mem_reverse.mp he)
    exact of_decide_eq_true hp

/-- An arrival keeps the order of the ids. -/
theorem ordered_insertById (entry : Recorded) {journal : List Recorded} (hordered : OrderedById journal) :
    OrderedById (insertById entry journal) := by
  obtain ⟨below, above, hsplit, hinsert, hbelow, habove⟩ := around_insertById entry hordered
  rw [OrderedById, hsplit, List.pairwise_append] at hordered
  rw [hinsert, OrderedById, List.pairwise_append, List.pairwise_cons]
  refine ⟨hordered.1, ⟨fun e he => Int.le_of_lt (habove e he), hordered.2.1⟩, fun a ha b hb => ?_⟩
  rcases List.mem_cons.mp hb with rfl | hb
  · exact hbelow a ha
  · exact (hbelow a ha).trans (Int.le_of_lt (habove b hb))

/-- **An arrival goes where its id belongs.** -/
theorem sorted_insertById {entry : Recorded} {journal : List Recorded} (hsorted : SortedById journal)
    (hnew : ∀ e ∈ journal, e.id ≠ entry.id) : SortedById (insertById entry journal) := by
  obtain ⟨below, above, hsplit, hinsert, hbelow, habove⟩ := around_insertById entry hsorted.ordered
  have hbelow : ∀ e ∈ below, e.id < entry.id := fun e he =>
    lt_of_le_of_ne (hbelow e he) (hnew e (by rw [hsplit]; exact List.mem_append_left _ he))
  rw [SortedById, hsplit, List.pairwise_append] at hsorted
  rw [hinsert, SortedById, List.pairwise_append, List.pairwise_cons]
  refine ⟨hsorted.1, ⟨habove, hsorted.2.1⟩, fun a ha b hb => ?_⟩
  rcases List.mem_cons.mp hb with rfl | hb
  · exact hbelow a ha
  · exact (hbelow a ha).trans (habove b hb)

/-! ## Catching a slot up -/

/-- The slot has just been subscribed, and nothing is pending for it. -/
def SSERegistry.Fresh (r : SSERegistry) (slot : Int) (url : Bytes) (lastId : Int) : Prop :=
  r.inRange slot = true ∧ r.slots slot = ⟨true, url, lastId, []⟩

/-- A replay that was refused is taken back. -/
theorem slots_takenBack {r : SSERegistry} {slot : Int} (hin : r.inRange slot = true) (url : Bytes)
    (lastId : Int) (entries : List Recorded) :
    (((replayFrom r slot entries).1.unsubscribe slot).subscribe slot url lastId).slots slot =
      ⟨true, url, lastId, []⟩ := by
  have hrange : (replayFrom r slot entries).1.inRange slot = true := by
    rw [DatastarStream.inRange_replayFrom]
    exact hin
  have hrange' : ((replayFrom r slot entries).1.unsubscribe slot).inRange slot = true := by
    unfold SSERegistry.inRange at hrange ⊢
    rw [SSERegistry.capacity_unsubscribe]
    exact hrange
  rw [SSERegistry.slots_subscribe, SSERegistry.slots_unsubscribe, hrange, hrange', beq_self_eq_true]
  rfl

/-- What a subscriber of `url` at `lastId` is owed of the frames there have been. -/
structure Owed (all : List Recorded) (url : Bytes) (lastId : Int) (owed : List Recorded) : Prop where
  sorted : SortedById owed
  mem : ∀ e, e ∈ owed ↔ e ∈ all ∧ e.url = url ∧ lastId < e.id

/-- What a journal has kept for a subscriber is all that it is owed, if it kept all above some id that the
subscriber has. -/
theorem owed_filter {journal all : List Recorded} (hsorted : SortedById journal)
    (hown : ∀ e ∈ journal, e ∈ all) {url : Bytes} {lastId : Int}
    (hkept : ∀ e ∈ all, e.url = url → lastId < e.id → e ∈ journal) :
    Owed all url lastId (journal.filter fun entry => entry.url == url && entry.id > lastId) := by
  refine ⟨List.Pairwise.filter _ hsorted, fun e => ?_⟩
  rw [List.mem_filter, Bool.and_eq_true, beq_iff_eq, decide_eq_true_eq]
  constructor
  · rintro ⟨hmem, hurl, hid⟩
    exact ⟨hown e hmem, hurl, hid⟩
  · rintro ⟨hmem, hurl, hid⟩
    exact ⟨hkept e hmem hurl hid, hurl, hid⟩

/-! ## The server's journal -/

namespace ReplayJournal

inductive Op where
  | startAfter (eventId : Int)
  | record (url : Bytes) (eventId : Int) (frame : Bytes)
  deriving Repr, DecidableEq

def apply (j : ReplayJournal) : Op → ReplayJournal
  | .startAfter eventId => j.startAfter eventId
  | .record url eventId frame => j.record url eventId frame

/-- A numbered frame passed to `record`. -/
def Op.entry? : Op → Option Recorded
  | .record url eventId frame => if eventId == NO_EVENT_ID then none else some ⟨url, eventId, frame⟩
  | .startAfter _ => none

def recorded (ops : List Op) : List Recorded := ops.filterMap Op.entry?

/-- Calls of which no two record frames of one id. -/
structure Arrivals where
  ops : List Op
  once : ((recorded ops).map Recorded.id).Nodup

/-- The journal behind the calls. -/
def Arrivals.journal (a : Arrivals) (cap : Int) : ReplayJournal := a.ops.foldl apply (new cap)

/-- A `start_after` behind the entry's arrival has passed it. -/
def Passed (ops : List Op) (e : Recorded) : Prop :=
  ∃ before behind n, ops = before ++ Op.startAfter n :: behind ∧ e ∈ recorded before ∧ e.id ≤ n

structure Sound (j : ReplayJournal) (ops : List Op) : Prop where
  sorted : SortedById j.entries
  own : ∀ e ∈ j.entries, e ∈ recorded ops
  /-- What is not kept is not above the floor. -/
  kept : ∀ e ∈ recorded ops, j.floor < e.id → e ∈ j.entries
  above : ∀ e ∈ j.entries, j.floor < e.id ∨ Passed ops e
  head : ∀ e ∈ j.entries, 0 < e.id ∧ e.id ≤ j.head
  floor : 0 ≤ j.floor

theorem recorded_append (as bs : List Op) : recorded (as ++ bs) = recorded as ++ recorded bs :=
  List.filterMap_append

theorem Passed.more {ops : List Op} {e : Recorded} (h : Passed ops e) (op : Op) : Passed (ops ++ [op]) e := by
  obtain ⟨before, behind, n, rfl, hmem, hle⟩ := h
  exact ⟨before, behind ++ [op], n, by rw [List.append_assoc]; rfl, hmem, hle⟩

/-- One entry is dropped for the cap, and the floor moved on to it. -/
theorem Sound.evict {j : ReplayJournal} {ops : List Op} (hs : j.Sound ops) {gone : Recorded}
    {rest : List Recorded} (hentries : j.entries = gone :: rest) :
    ({ j with entries := rest, floor := max j.floor gone.id } : ReplayJournal).Sound ops := by
  have hsorted := hs.sorted
  rw [SortedById, hentries, List.pairwise_cons] at hsorted
  have hmem : ∀ e ∈ rest, e ∈ j.entries := fun e he => by
    rw [hentries]
    exact List.mem_cons_of_mem _ he
  refine ⟨hsorted.2, fun e he => hs.own e (hmem e he), fun e he hfloor => ?_, fun e he => ?_,
    fun e he => hs.head e (hmem e he), hs.floor.trans (le_max_left _ _)⟩
  · have hlt : max j.floor gone.id < e.id := hfloor
    rw [max_lt_iff] at hlt
    have hkept := hs.kept e he hlt.1
    rw [hentries] at hkept
    rcases List.mem_cons.mp hkept with rfl | hkept
    · exact absurd hlt.2 (Int.lt_irrefl _)
    · exact hkept
  · exact (hs.above e (hmem e he)).imp (fun hlt => max_lt hlt (hsorted.1 e he)) id

theorem Sound.evictOver {j : ReplayJournal} {ops : List Op} (hs : j.Sound ops) (fuel : Nat) :
    (j.evictOver fuel).Sound ops := by
  induction fuel generalizing j with
  | zero => exact hs
  | succ fuel ih =>
    unfold ReplayJournal.evictOver
    split
    · exact hs
    · next gone rest hentries =>
      split
      · exact ih (hs.evict hentries)
      · exact hs

theorem length_evictOver {j : ReplayJournal} (fuel : Nat) (hfuel : j.entries.length ≤ j.cap + fuel) :
    (j.evictOver fuel).entries.length ≤ j.cap ∧ (j.evictOver fuel).cap = j.cap := by
  induction fuel generalizing j with
  | zero => exact ⟨hfuel, rfl⟩
  | succ fuel ih =>
    unfold ReplayJournal.evictOver
    split
    · next hnil =>
      rw [hnil]
      exact ⟨Nat.zero_le _, rfl⟩
    · next gone rest hentries =>
      split
      · rw [hentries, List.length_cons] at hfuel
        have hrest : rest.length ≤ j.cap + fuel := by omega
        exact @ih { j with entries := rest, floor := max j.floor gone.id } hrest
      · next hfits => exact ⟨Nat.not_lt.mp hfits, rfl⟩

/-- The frames before the first one are history that a journal with nothing in it does not have. -/
theorem Sound.raise {j : ReplayJournal} {ops : List Op} (hs : j.Sound ops) (hempty : j.entries = [])
    {floor : Int} (hle : j.floor ≤ floor) : ({ j with floor := floor } : ReplayJournal).Sound ops := by
  refine ⟨hs.sorted, hs.own, fun e he hlt => hs.kept e he (lt_of_le_of_lt hle hlt), fun e he => ?_, hs.head,
    hs.floor.trans hle⟩
  rw [hempty] at he
  cases he

/-- A numbered frame that no frame before had the id of. -/
theorem Sound.insert {j : ReplayJournal} {ops : List Op} {op : Op} {entry : Recorded} (hs : j.Sound ops)
    (hop : recorded (ops ++ [op]) = recorded ops ++ [entry]) (hnew : ∀ e ∈ recorded ops, e.id ≠ entry.id)
    (habove : j.floor < entry.id) :
    ({ j with entries := insertById entry j.entries, head := max j.head entry.id } : ReplayJournal).Sound
      (ops ++ [op]) := by
  refine ⟨sorted_insertById hs.sorted fun e he => hnew e (hs.own e he), fun e he => ?_, fun e he hlt => ?_,
    fun e he => ?_, fun e he => ?_, hs.floor⟩
  · rw [hop]
    rcases mem_insertById.mp he with rfl | he
    · exact List.mem_append_right _ (List.mem_singleton_self e)
    · exact List.mem_append_left _ (hs.own e he)
  · rw [hop] at he
    apply mem_insertById.mpr
    rcases List.mem_append.mp he with he | he
    · exact Or.inr (hs.kept e he hlt)
    · exact Or.inl (List.mem_singleton.mp he)
  · rcases mem_insertById.mp he with rfl | he
    · exact Or.inl habove
    · exact (hs.above e he).imp_right fun hpassed => hpassed.more op
  · rcases mem_insertById.mp he with rfl | he
    · exact ⟨lt_of_le_of_lt hs.floor habove, le_max_right _ _⟩
    · exact ⟨(hs.head e he).1, (hs.head e he).2.trans (le_max_left _ _)⟩

/-- A frame that is not kept: the floor is not below it. -/
theorem Sound.pass {j : ReplayJournal} {ops : List Op} {op : Op} {entry : Recorded} (hs : j.Sound ops)
    (hop : recorded (ops ++ [op]) = recorded ops ++ [entry]) (hbelow : entry.id ≤ j.floor) :
    j.Sound (ops ++ [op]) := by
  refine ⟨hs.sorted, fun e he => ?_, fun e he hlt => ?_,
    fun e he => (hs.above e he).imp_right fun hpassed => hpassed.more op, hs.head, hs.floor⟩
  · rw [hop]
    exact List.mem_append_left _ (hs.own e he)
  · rw [hop] at he
    rcases List.mem_append.mp he with he | he
    · exact hs.kept e he hlt
    · rw [List.mem_singleton.mp he] at hlt
      exact absurd hlt (Int.not_lt.mpr hbelow)

theorem Sound.head_max {j : ReplayJournal} {ops : List Op} (hs : j.Sound ops) (id : Int) :
    ({ j with head := max j.head id } : ReplayJournal).Sound ops :=
  ⟨hs.sorted, hs.own, hs.kept, hs.above,
    fun e he => ⟨(hs.head e he).1, (hs.head e he).2.trans (le_max_left _ _)⟩, hs.floor⟩

/-- **Every call keeps every arrival above the floor**, whatever it moves the floor for. -/
theorem Sound.apply {j : ReplayJournal} {ops : List Op} (hs : j.Sound ops) (op : Op)
    (honce : ((recorded (ops ++ [op])).map Recorded.id).Nodup) (hcap : j.entries.length ≤ j.cap) :
    (j.apply op).Sound (ops ++ [op]) := by
  cases op with
  | startAfter eventId =>
    have hsame : recorded (ops ++ [Op.startAfter eventId]) = recorded ops := by
      rw [recorded_append]
      exact List.append_nil _
    refine ⟨hs.sorted, fun e he => by rw [hsame]; exact hs.own e he, fun e he hfloor => ?_, fun e he => ?_,
      fun e he => ⟨(hs.head e he).1, (hs.head e he).2.trans (le_max_left _ _)⟩,
      hs.floor.trans (le_max_left _ _)⟩
    · rw [hsame] at he
      exact hs.kept e he (lt_of_le_of_lt (le_max_left _ _) hfloor)
    · rcases hs.above e he with hlt | hpassed
      · rcases Int.lt_or_le eventId e.id with hbelow | hover
        · exact Or.inl (max_lt hlt hbelow)
        · exact Or.inr ⟨ops, [], eventId, rfl, hs.own e he, hover⟩
      · exact Or.inr (hpassed.more _)
  | record url eventId frame =>
    show (j.record url eventId frame).Sound _
    unfold ReplayJournal.record
    split
    · next hunnumbered =>
      have hsame : recorded (ops ++ [Op.record url eventId frame]) = recorded ops := by
        rw [recorded_append]
        show recorded ops ++ [Op.record url eventId frame].filterMap Op.entry? = _
        rw [List.filterMap_cons, Op.entry?, if_pos hunnumbered]
        exact List.append_nil _
      exact ⟨hs.sorted, fun e he => by rw [hsame]; exact hs.own e he, fun e he hlt => by
        rw [hsame] at he
        exact hs.kept e he hlt, fun e he => (hs.above e he).imp_right fun hpassed => hpassed.more _, hs.head,
        hs.floor⟩
    · next hnumbered =>
      have hop : recorded (ops ++ [Op.record url eventId frame]) = recorded ops ++ [⟨url, eventId, frame⟩] := by
        rw [recorded_append]
        show recorded ops ++ [Op.record url eventId frame].filterMap Op.entry? = _
        rw [List.filterMap_cons, Op.entry?, if_neg hnumbered]
        rfl
      have hnew : ∀ e ∈ recorded ops, e.id ≠ eventId := by
        rw [hop, List.map_append, List.nodup_append] at honce
        exact fun e he => honce.2.2 e.id (List.mem_map_of_mem he) eventId (List.mem_singleton_self _)
      dsimp only
      -- the first frame of all moves the floor up to it
      have hfirst : (if j.head == 0 && decide (eventId - 1 > j.floor) then { j with floor := eventId - 1 }
          else j : ReplayJournal).Sound ops ∧
          (if j.head == 0 && decide (eventId - 1 > j.floor) then { j with floor := eventId - 1 }
            else j : ReplayJournal).entries = j.entries ∧
          (if j.head == 0 && decide (eventId - 1 > j.floor) then { j with floor := eventId - 1 }
            else j : ReplayJournal).cap = j.cap := by
        split
        · next hraise =>
          rw [Bool.and_eq_true, beq_iff_eq, decide_eq_true_eq] at hraise
          have hempty : j.entries = [] := by
            apply List.eq_nil_iff_forall_not_mem.mpr
            intro e he
            have hhead := hs.head e he
            omega
          exact ⟨hs.raise hempty (Int.le_of_lt hraise.2), rfl, rfl⟩
        · exact ⟨hs, rfl, rfl⟩
      generalize (if j.head == 0 && decide (eventId - 1 > j.floor) then { j with floor := eventId - 1 }
        else j : ReplayJournal) = j' at hfirst
      obtain ⟨hs', hentries, hcap'⟩ := hfirst
      split
      · next hbelow => exact (hs'.head_max eventId).pass hop hbelow
      · next habove =>
        have habove : j'.floor < eventId := Int.not_le.mp habove
        split
        · next hzero =>
          have hzero : j'.cap = 0 := eq_of_beq hzero
          have hempty : j'.entries = [] := by
            rw [hcap'] at hzero
            rw [hzero] at hcap
            rw [hentries]
            exact List.length_eq_zero_iff.mp (Nat.le_zero.mp hcap)
          exact ((hs'.head_max eventId).raise hempty (Int.le_of_lt habove)).pass hop (Int.le_refl eventId)
        · exact (hs'.insert hop hnew habove).evictOver _

theorem capped_apply {j : ReplayJournal} (hcap : j.entries.length ≤ j.cap) (op : Op) :
    (j.apply op).entries.length ≤ (j.apply op).cap ∧ (j.apply op).cap = j.cap := by
  cases op with
  | startAfter eventId => exact ⟨hcap, rfl⟩
  | record url eventId frame =>
    show (j.record url eventId frame).entries.length ≤ (j.record url eventId frame).cap ∧
      (j.record url eventId frame).cap = j.cap
    unfold ReplayJournal.record
    split
    · exact ⟨hcap, rfl⟩
    · dsimp only
      have hfirst : (if j.head == 0 && decide (eventId - 1 > j.floor) then { j with floor := eventId - 1 }
            else j : ReplayJournal).entries = j.entries ∧
          (if j.head == 0 && decide (eventId - 1 > j.floor) then { j with floor := eventId - 1 }
            else j : ReplayJournal).cap = j.cap := by
        split
        · exact ⟨rfl, rfl⟩
        · exact ⟨rfl, rfl⟩
      generalize (if j.head == 0 && decide (eventId - 1 > j.floor) then { j with floor := eventId - 1 }
        else j : ReplayJournal) = j' at hfirst
      obtain ⟨hentries, hcap'⟩ := hfirst
      have hfits : j'.entries.length ≤ j'.cap := by
        rw [hentries, hcap']
        exact hcap
      split
      · exact ⟨hfits, hcap'⟩
      · split
        · exact ⟨hfits, hcap'⟩
        · have hevicted := length_evictOver
            (j := { j' with
              entries := insertById ⟨url, eventId, frame⟩ j'.entries, head := max j'.head eventId })
            (insertById ⟨url, eventId, frame⟩ j'.entries).length (Nat.le_add_left _ _)
          exact ⟨hevicted.1.trans (Nat.le_of_eq hevicted.2.symm), hevicted.2.trans hcap'⟩

theorem sound_new (cap : Int) : (new cap).Sound [] :=
  ⟨List.Pairwise.nil, fun _ he => (nomatch he), fun _ he => (nomatch he), fun _ he => (nomatch he),
    fun _ he => (nomatch he), Int.le_refl 0⟩

theorem sound_run (cap : Int) {ops : List Op} (honce : ((recorded ops).map Recorded.id).Nodup) :
    (ops.foldl apply (new cap)).Sound ops ∧
      (ops.foldl apply (new cap)).entries.length ≤ (ops.foldl apply (new cap)).cap ∧
        (ops.foldl apply (new cap)).cap = cap.toNat := by
  induction ops using List.reverseRecOn with
  | nil => exact ⟨sound_new cap, Nat.zero_le _, rfl⟩
  | append_singleton ops op ih =>
    have hbefore : ((recorded ops).map Recorded.id).Nodup := by
      rw [recorded_append, List.map_append] at honce
      exact (List.nodup_append.mp honce).1
    obtain ⟨hs, hcap, hsame⟩ := ih hbefore
    have hcapped := capped_apply hcap op
    rw [List.foldl_append]
    exact ⟨hs.apply op honce hcap, hcapped.1, hcapped.2.trans hsame⟩

/-- What the claim of a journal that hides no gap comes to. -/
structure Honest (j : ReplayJournal) (cap : Int) (ops : List Op) : Prop where
  sorted : SortedById j.entries
  /-- Above the floor, unless a `start_after` came behind the frame and passed it. -/
  above : ∀ e ∈ j.entries, j.floor < e.id ∨ Passed ops e
  capped : j.entries.length ≤ cap.toNat
  kept : ∀ e ∈ recorded ops, j.floor < e.id → e ∈ j.entries
  caughtUp : ∀ r slot url lastId, r.Fresh slot url lastId → (j.catchUp r slot url lastId).2 = true →
    ∃ owed, Owed (recorded ops) url lastId owed ∧
      ((j.catchUp r slot url lastId).1.slots slot).pendingBuf = (owed.map Recorded.frame).flatten
  refused : ∀ r slot url lastId, r.Fresh slot url lastId → (j.catchUp r slot url lastId).2 = false →
    (j.catchUp r slot url lastId).1.slots slot = ⟨true, url, lastId, []⟩

/-- **A journal hides no gap**: it catches a subscriber up with every frame that it missed, or says that it
cannot. -/
theorem hides_no_gap (cap : Int) (a : Arrivals) : (a.journal cap).Honest cap a.ops := by
  obtain ⟨hs, hcap, hsame⟩ := sound_run cap a.once
  refine ⟨hs.sorted, hs.above, ?_, hs.kept, fun r slot url lastId hfresh hyes => ?_,
    fun r slot url lastId hfresh hno => ?_⟩
  · rw [← hsame]
    exact hcap
  · unfold catchUp at hyes ⊢
    split at hyes
    · cases hyes
    · next hcovers =>
      rw [if_neg hcovers]
      have hfloor : (a.journal cap).floor ≤ lastId := by
        rw [Bool.not_eq_true', Bool.not_eq_false, covers, decide_eq_true_eq] at hcovers
        exact hcovers
      dsimp only at hyes ⊢
      split at hyes
      · next hall =>
        rw [if_pos hall]
        refine ⟨_, owed_filter hs.sorted hs.own fun e he _ hid => hs.kept e he (lt_of_le_of_lt hfloor hid), ?_⟩
        have hpending := DatastarStream.pending_replayFrom hall
        have hnone : r.pending slot = [] := by
          unfold SSERegistry.pending
          rw [hfresh.2]
        rw [hnone, List.nil_append] at hpending
        exact hpending
      · cases hyes
  · unfold catchUp at hno ⊢
    split at hno
    · next hcovers =>
      rw [if_pos hcovers]
      exact hfresh.2
    · next hcovers =>
      rw [if_neg hcovers]
      dsimp only at hno ⊢
      split at hno
      · cases hno
      · next hrefused =>
        rw [if_neg hrefused]
        exact slots_takenBack hfresh.1 url lastId _

/-- A `start_after` behind the first frames leaves them in the journal, below its floor. -/
theorem not_all_above : ¬ ∀ (cap : Int) (a : Arrivals), ∀ e ∈ (a.journal cap).entries,
    (a.journal cap).floor < e.id := by
  intro hall
  have hlt := hall 3 ⟨[.record [] 1 [], .startAfter 5], by decide⟩ ⟨[], 1, []⟩ (by decide)
  exact absurd hlt (by decide)

end ReplayJournal

end MojoHttp
