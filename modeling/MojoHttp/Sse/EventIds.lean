import MojoHttp.Lib.Execution
import MojoHttp.Sse.Subscriptions

/-!
# Numbered events on the bus (`m0pub.py`, `sse_peer_frame`)

Any number of publishers number their frames from one shared counter and write them to every
worker's channel; a worker hands what arrives to its registry. The id is taken before the first write
and the writes of two publishers interleave, so frames may arrive out of order: the redelivery filter
keeps the newer one.

* **`Sound`** — what holds of the ids in flight: each is written to a channel at most once.
* **`arrives_once`** — a frame a channel took arrives there at one instant.
* **`queued_unless_overtaken`** — it is queued there for a subscriber unless a newer one was before.
-/

namespace MojoHttp.EventBus

/-- A publisher from its id on: the datagram, and the worker whose channel is written next. -/
structure Publishing where
  datagram : Published
  nextWorker : Nat
  deriving Repr, DecidableEq

structure World where
  /-- The shared counter: the last id taken. -/
  counter : Int
  publishers : Nat → Option Publishing
  /-- By worker, the datagrams in its channel, oldest first. -/
  channels : Nat → List Published
  registries : Nat → SSERegistry

inductive Label where
  /-- `next_event_id`, and the frame built around the id. -/
  | take (p : Nat) (frame : Bytes)
  /-- One `os.write` of `publish_frame`, which a full channel refuses. -/
  | write (p : Nat) (taken : Bool)
  /-- The worker reads one datagram and hands it to `sse_peer_frame`. -/
  | deliver (w : Nat)
  | subscribe (w : Nat) (slot : Int) (url : Bytes) (lastEventId : Int)
  | unsubscribe (w : Nat) (slot : Int)
  | drain (w : Nat) (slot : Int)
  deriving Repr, DecidableEq

/-- Publishing is done: every worker's channel has been written. -/
def Publishing.done (workers : Nat) (h : Publishing) : Bool := workers ≤ h.nextWorker

namespace World

def setPublisher (s : World) (p : Nat) (h : Publishing) : World :=
  { s with publishers := Function.update s.publishers p (some h) }

def setChannel (s : World) (w : Nat) (c : List Published) : World :=
  { s with channels := Function.update s.channels w c }

def setRegistry (s : World) (w : Nat) (r : SSERegistry) : World :=
  { s with registries := Function.update s.registries w r }

end World

/-- What one label does. Every frame is published on `url`. -/
def next (url : Bytes) (workers : Nat) (s : World) : Label → Option World
  | .take p frame =>
    let id := s.counter + 1
    let taken := ({ s with counter := id }).setPublisher p ⟨⟨url, id, frame⟩, 0⟩
    match s.publishers p with
    | none => some taken
    | some h => if h.done workers then some taken else none
  | .write p taken =>
    match s.publishers p with
    | none => none
    | some h =>
      if h.done workers then none
      else
        let s := s.setPublisher p { h with nextWorker := h.nextWorker + 1 }
        some (if taken then s.setChannel h.nextWorker (s.channels h.nextWorker ++ [h.datagram]) else s)
  | .deliver w =>
    match s.channels w with
    | [] => none
    | f :: rest =>
      some ((s.setChannel w rest).setRegistry w
        ((s.registries w).notifyFrame f.url f.eventId f.frame).1)
  | .subscribe w slot url lastEventId =>
    some (s.setRegistry w ((s.registries w).subscribe slot url lastEventId))
  | .unsubscribe w slot => some (s.setRegistry w ((s.registries w).unsubscribe slot))
  | .drain w slot => some (s.setRegistry w ((s.registries w).drain slot).1)

/-- The bus of `workers` workers, each with `capacity` slots, publishing on `url`. -/
def bus (url : Bytes) (workers capacity : Nat) : LabelledSystem World Label where
  init := ⟨0, fun _ => none, fun _ => [], fun _ => SSERegistry.new capacity⟩
  next := next url workers

/-! ## The ids in flight -/

/-- A publisher has yet to write the frame numbered `m` to worker `w`'s channel. -/
def Coming (w : Nat) (m : Int) (s : World) : Prop :=
  ∃ p h, s.publishers p = some h ∧ h.datagram.eventId = m ∧ h.nextWorker ≤ w

/-- It waits in worker `w`'s channel. -/
def Waiting (w : Nat) (m : Int) (s : World) : Prop := ∃ f ∈ s.channels w, f.eventId = m

/-- Its id was taken, and it neither waits nor is still to come. -/
def Gone (w : Nat) (m : Int) (s : World) : Prop :=
  m ≤ s.counter ∧ ¬ Coming w m s ∧ ¬ Waiting w m s

/-- Each id was taken from the counter by one publisher, and is in a channel at most once: only where
its publisher has been. -/
structure Sound (url : Bytes) (s : World) : Prop where
  counter : 0 ≤ s.counter
  taken : ∀ p h, s.publishers p = some h →
    h.datagram.url = url ∧ 1 ≤ h.datagram.eventId ∧ h.datagram.eventId ≤ s.counter
  holder : ∀ p p' h h', s.publishers p = some h → s.publishers p' = some h' →
    h.datagram.eventId = h'.datagram.eventId → p = p'
  waiting : ∀ w, ∀ f ∈ s.channels w, f.url = url ∧ 1 ≤ f.eventId ∧ f.eventId ≤ s.counter
  nodup : ∀ w, ((s.channels w).map Published.eventId).Nodup
  written : ∀ p h w, s.publishers p = some h → ∀ f ∈ s.channels w,
    f.eventId = h.datagram.eventId → w < h.nextWorker

theorem sound_init (url : Bytes) (workers capacity : Nat) :
    Sound url (bus url workers capacity).init := by
  constructor <;> simp [bus]

/-! ## What a step does -/

section Steps

variable {url : Bytes} {workers : Nat} {s s' : World}

theorem next_take {p : Nat} {frame : Bytes} (h : next url workers s (.take p frame) = some s') :
    (∀ g, s.publishers p = some g → g.done workers = true) ∧
    s' = ({ s with counter := s.counter + 1 }).setPublisher p ⟨⟨url, s.counter + 1, frame⟩, 0⟩ := by
  simp only [next] at h
  cases hp : s.publishers p with
  | none =>
    rw [hp] at h
    exact ⟨nofun, (Option.some.inj h).symm⟩
  | some g =>
    simp only [hp] at h
    split at h
    · next hdone =>
      refine ⟨fun g' hg' => ?_, (Option.some.inj h).symm⟩
      cases hg'
      exact hdone
    · cases h

theorem next_write {p : Nat} {taken : Bool} (h : next url workers s (.write p taken) = some s') :
    ∃ g, s.publishers p = some g ∧ g.nextWorker < workers ∧
      s' = if taken then
          (s.setPublisher p { g with nextWorker := g.nextWorker + 1 }).setChannel g.nextWorker
            (s.channels g.nextWorker ++ [g.datagram])
        else s.setPublisher p { g with nextWorker := g.nextWorker + 1 } := by
  simp only [next] at h
  cases hp : s.publishers p with
  | none =>
    rw [hp] at h
    cases h
  | some g =>
    simp only [hp] at h
    split at h
    · cases h
    · next hdone =>
      rw [Publishing.done, decide_eq_true_eq, Nat.not_le] at hdone
      exact ⟨g, rfl, hdone, (Option.some.inj h).symm⟩

theorem next_deliver {w : Nat} (h : next url workers s (.deliver w) = some s') :
    ∃ f rest, s.channels w = f :: rest ∧
      s' = (s.setChannel w rest).setRegistry w
        ((s.registries w).notifyFrame f.url f.eventId f.frame).1 := by
  simp only [next] at h
  cases hw : s.channels w with
  | nil =>
    rw [hw] at h
    cases h
  | cons f rest =>
    rw [hw] at h
    exact ⟨f, rest, rfl, (Option.some.inj h).symm⟩

end Steps

/-! ### The ids stay sound -/

section Kept

variable {url : Bytes} {s : World}

/-- A step of a registry touches none of the ids. -/
theorem Sound.setRegistry (h : Sound url s) (w : Nat) (r : SSERegistry) :
    Sound url (s.setRegistry w r) :=
  ⟨h.counter, h.taken, h.holder, h.waiting, h.nodup, h.written⟩

theorem Sound.take (h : Sound url s) (p : Nat) (frame : Bytes) :
    Sound url
      (({ s with counter := s.counter + 1 }).setPublisher p ⟨⟨url, s.counter + 1, frame⟩, 0⟩) := by
  have hcounter := h.counter
  constructor
  case counter =>
    show 0 ≤ s.counter + 1
    omega
  case taken =>
    intro q g hg
    show _ ∧ _ ∧ _ ≤ s.counter + 1
    simp only [World.setPublisher, Function.update_apply] at hg
    split at hg
    · cases hg
      exact ⟨rfl, by simp only; omega, by simp⟩
    · have ⟨hurl, hlow, hhigh⟩ := h.taken q g hg
      exact ⟨hurl, hlow, by omega⟩
  case holder =>
    intro q q' g g' hg hg' heq
    simp only [World.setPublisher, Function.update_apply] at hg hg'
    split at hg <;> split at hg'
    · next hq hq' => exact hq.trans hq'.symm
    · have := (h.taken q' g' hg').2.2
      cases hg
      simp only at heq
      omega
    · have := (h.taken q g hg).2.2
      cases hg'
      simp only at heq
      omega
    · exact h.holder q q' g g' hg hg' heq
  case waiting =>
    intro w f hf
    have ⟨hurl, hlow, hhigh⟩ := h.waiting w f hf
    refine ⟨hurl, hlow, ?_⟩
    show f.eventId ≤ s.counter + 1
    omega
  case nodup => exact h.nodup
  case written =>
    intro q g w hg f hf heq
    have := (h.waiting w f hf).2.2
    simp only [World.setPublisher, Function.update_apply] at hg
    split at hg
    · cases hg
      simp only at heq
      omega
    · exact h.written q g w hg f hf heq

/-- A publisher moves on to the next worker. -/
theorem Sound.advance (h : Sound url s) {p : Nat} {g : Publishing} (hg : s.publishers p = some g) :
    Sound url (s.setPublisher p { g with nextWorker := g.nextWorker + 1 }) := by
  constructor
  case counter => exact h.counter
  case taken =>
    intro q g' hg'
    simp only [World.setPublisher, Function.update_apply] at hg'
    split at hg'
    · cases hg'
      exact h.taken p g hg
    · exact h.taken q g' hg'
  case holder =>
    have hsame : ∀ q g', (s.setPublisher p { g with nextWorker := g.nextWorker + 1 }).publishers q =
        some g' → ∃ g'', s.publishers q = some g'' ∧ g''.datagram.eventId = g'.datagram.eventId := by
      intro q g' hg'
      simp only [World.setPublisher, Function.update_apply] at hg'
      split at hg'
      · next hq =>
        cases hg'
        exact ⟨g, hq ▸ hg, rfl⟩
      · exact ⟨g', hg', rfl⟩
    intro q q' g₁ g₂ hg₁ hg₂ heq
    have ⟨f₁, hf₁, heq₁⟩ := hsame q g₁ hg₁
    have ⟨f₂, hf₂, heq₂⟩ := hsame q' g₂ hg₂
    exact h.holder q q' f₁ f₂ hf₁ hf₂ (heq₁.trans (heq.trans heq₂.symm))
  case waiting => exact h.waiting
  case nodup => exact h.nodup
  case written =>
    intro q g' w hg' f hf heq
    simp only [World.setPublisher, Function.update_apply] at hg'
    split at hg'
    · cases hg'
      exact Nat.lt_succ_of_lt (h.written p g w hg f hf heq)
    · exact h.written q g' w hg' f hf heq

/-- The channel written takes a datagram whose id it never held. -/
theorem Sound.written_to (h : Sound url s) {p : Nat} {g : Publishing} (hg : s.publishers p = some g) :
    Sound url ((s.setPublisher p { g with nextWorker := g.nextWorker + 1 }).setChannel g.nextWorker
      (s.channels g.nextWorker ++ [g.datagram])) := by
  have hadv := h.advance hg
  have hnew : ∀ f ∈ s.channels g.nextWorker, f.eventId ≠ g.datagram.eventId := by
    intro f hf heq
    exact Nat.lt_irrefl _ (h.written p g g.nextWorker hg f hf heq)
  constructor
  case counter => exact h.counter
  case taken => exact hadv.taken
  case holder => exact hadv.holder
  case waiting =>
    intro w f hf
    simp only [World.setChannel, Function.update_apply] at hf
    split at hf
    · rcases List.mem_append.mp hf with hf | hf
      · exact h.waiting _ f hf
      · rw [List.mem_singleton.mp hf]
        exact h.taken p g hg
    · exact h.waiting w f hf
  case nodup =>
    intro w
    simp only [World.setChannel, Function.update_apply]
    split
    · rw [List.map_append, List.nodup_append]
      refine ⟨h.nodup _, List.nodup_singleton _, ?_⟩
      intro a ha b hb
      have ⟨f, hf, hfa⟩ := List.mem_map.mp ha
      rw [List.map_singleton, List.mem_singleton] at hb
      rw [hb, ← hfa]
      exact hnew f hf
    · exact h.nodup w
  case written =>
    intro q g' w hg' f hf heq
    simp only [World.setChannel, Function.update_apply] at hf
    split at hf
    · next hw =>
      rcases List.mem_append.mp hf with hf | hf
      · exact hw ▸ hadv.written q g' g.nextWorker hg' f hf heq
      · -- the datagram itself: its one holder has just been there
        rw [List.mem_singleton.mp hf] at heq
        have hself : (s.setPublisher p { g with nextWorker := g.nextWorker + 1 }).publishers p =
            some { g with nextWorker := g.nextWorker + 1 } := by
          simp [World.setPublisher]
        have hq : p = q := hadv.holder p q _ g' hself hg' heq
        subst hq
        have hmoved := Option.some.inj (hself.symm.trans hg')
        rw [hw, ← hmoved]
        exact Nat.lt_succ_self _
    · exact hadv.written q g' w hg' f hf heq

/-- A worker reads the oldest datagram. -/
theorem Sound.read (h : Sound url s) {w : Nat} {f : Published} {rest : List Published}
    (hw : s.channels w = f :: rest) : Sound url (s.setChannel w rest) := by
  have hsub : ∀ v, ∀ g ∈ (s.setChannel w rest).channels v, g ∈ s.channels v := by
    intro v g hg
    simp only [World.setChannel, Function.update_apply] at hg
    split at hg
    · next hv =>
      rw [hv, hw]
      exact List.mem_cons_of_mem f hg
    · exact hg
  constructor
  case counter => exact h.counter
  case taken => exact h.taken
  case holder => exact h.holder
  case waiting => exact fun v g hg => h.waiting v g (hsub v g hg)
  case nodup =>
    intro v
    simp only [World.setChannel, Function.update_apply]
    split
    · have := h.nodup w
      rw [hw, List.map_cons, List.nodup_cons] at this
      exact this.2
    · exact h.nodup v
  case written => exact fun p g v hg f' hf' heq => h.written p g v hg f' (hsub v f' hf') heq

/-- **Every step keeps the ids sound.** -/
theorem Sound.next (h : Sound url s) {workers : Nat} {l : Label} {s' : World}
    (hnext : next url workers s l = some s') : Sound url s' := by
  cases l with
  | take p frame =>
    have ⟨_, heq⟩ := next_take hnext
    exact heq ▸ h.take p frame
  | write p taken =>
    have ⟨g, hg, _, heq⟩ := next_write hnext
    rw [heq]
    split
    · exact h.written_to hg
    · exact h.advance hg
  | deliver w =>
    have ⟨f, rest, hw, heq⟩ := next_deliver hnext
    exact heq ▸ (h.read hw).setRegistry w _
  | subscribe w slot url' lastEventId =>
    cases hnext
    exact h.setRegistry w _
  | unsubscribe w slot =>
    cases hnext
    exact h.setRegistry w _
  | drain w slot =>
    cases hnext
    exact h.setRegistry w _

end Kept

/-! ## Where a frame goes -/

section Passing

variable {url : Bytes} {workers w : Nat} {m : Int} {s s' : World}

/-- What is gone stays gone. -/
theorem Gone.next (h : Gone w m s) {l : Label} (hnext : next url workers s l = some s') :
    Gone w m s' := by
  have ⟨htaken, hcoming, hwaiting⟩ := h
  cases l with
  | take p frame =>
    have ⟨_, heq⟩ := next_take hnext
    subst heq
    refine ⟨by show m ≤ s.counter + 1; omega, ?_, hwaiting⟩
    rintro ⟨q, g, hg, hm, hle⟩
    simp only [World.setPublisher, Function.update_apply] at hg
    split at hg
    · cases hg
      simp only at hm
      omega
    · exact hcoming ⟨q, g, hg, hm, hle⟩
  | write p taken =>
    have ⟨g, hg, _, heq⟩ := next_write hnext
    have hadv : ¬ Coming w m (s.setPublisher p { g with nextWorker := g.nextWorker + 1 }) := by
      rintro ⟨q, g', hg', hm, hle⟩
      simp only [World.setPublisher, Function.update_apply] at hg'
      split at hg'
      · cases hg'
        exact hcoming ⟨p, g, hg, hm, Nat.le_of_succ_le hle⟩
      · exact hcoming ⟨q, g', hg', hm, hle⟩
    rw [heq]
    split
    · refine ⟨htaken, hadv, ?_⟩
      rintro ⟨f, hf, hm⟩
      simp only [World.setChannel, Function.update_apply] at hf
      split at hf
      · next hw =>
        rcases List.mem_append.mp hf with hf | hf
        · exact hwaiting ⟨f, hw ▸ hf, hm⟩
        · rw [List.mem_singleton.mp hf] at hm
          exact hcoming ⟨p, g, hg, hm, Nat.le_of_eq hw.symm⟩
      · exact hwaiting ⟨f, hf, hm⟩
    · exact ⟨htaken, hadv, hwaiting⟩
  | deliver v =>
    have ⟨f, rest, hv, heq⟩ := next_deliver hnext
    subst heq
    refine ⟨htaken, hcoming, ?_⟩
    rintro ⟨f', hf', hm⟩
    simp only [World.setRegistry, World.setChannel, Function.update_apply] at hf'
    split at hf'
    · next hw => exact hwaiting ⟨f', by rw [hw, hv]; exact List.mem_cons_of_mem f hf', hm⟩
    · exact hwaiting ⟨f', hf', hm⟩
  | subscribe v slot url' lastEventId =>
    cases hnext
    exact h
  | unsubscribe v slot =>
    cases hnext
    exact h
  | drain v slot =>
    cases hnext
    exact h

/-- The worker reads the frame numbered `m` at this step. -/
def Reads (w : Nat) (m : Int) (s : World) (l : Label) : Prop :=
  l = .deliver w ∧ ∃ f, (s.channels w).head? = some f ∧ f.eventId = m

/-- The worker's channel refuses a write at this step. -/
def Refuses (w : Nat) (s : World) (l : Label) : Prop :=
  ∃ p g, l = .write p false ∧ s.publishers p = some g ∧ g.nextWorker = w

/-- **A frame is gone once it is read**, where its worker's channel takes every write. -/
theorem reads_of_gone {l : Label} (hw : w < workers) (hnext : next url workers s l = some s')
    (hbefore : ¬ Gone w m s) (hafter : Gone w m s') (htakes : ¬ Refuses w s l) : Reads w m s l := by
  have ⟨htaken, hcoming, hwaiting⟩ := hafter
  have hstill : m ≤ s.counter → Coming w m s ∨ Waiting w m s := by
    intro hle
    rcases Classical.em (Coming w m s) with hc | hc
    · exact Or.inl hc
    · exact Or.inr (Classical.byContradiction fun hwait => hbefore ⟨hle, hc, hwait⟩)
  cases l with
  | take p frame =>
    have ⟨hdone, heq⟩ := next_take hnext
    subst heq
    exfalso
    have htaken' : m ≤ s.counter + 1 := htaken
    rcases Int.lt_or_le s.counter m with hlt | hle
    · exact hcoming ⟨p, ⟨⟨url, s.counter + 1, frame⟩, 0⟩, by simp [World.setPublisher],
        by simp only; omega, Nat.zero_le w⟩
    · rcases hstill hle with ⟨q, g, hg, hm, hq⟩ | hwait
      · refine hcoming ⟨q, g, ?_, hm, hq⟩
        -- a publisher with writes to do takes no other id
        have hne : q ≠ p := by
          rintro rfl
          have := of_decide_eq_true (hdone g hg)
          omega
        simp [World.setPublisher, Function.update_of_ne hne, hg]
      · exact hwaiting hwait
  | write p taken =>
    have ⟨g, hg, _, heq⟩ := next_write hnext
    exfalso
    have hcounter : s'.counter = s.counter := by
      rw [heq]
      split <;> rfl
    rcases hstill (hcounter ▸ htaken) with ⟨q, g', hg', hm, hle⟩ | ⟨f, hf, hm⟩
    · rcases Decidable.em (q = p) with rfl | hne
      · rw [hg] at hg'
        cases hg'
        rcases Nat.lt_or_eq_of_le hle with hlt | hhere
        · refine hcoming ⟨q, { g with nextWorker := g.nextWorker + 1 }, ?_, hm, hlt⟩
          rw [heq]
          split <;> simp [World.setPublisher, World.setChannel]
        · cases taken with
          | false => exact htakes ⟨q, g, rfl, hg, hhere⟩
          | true =>
            refine hwaiting ⟨g.datagram, ?_, hm⟩
            rw [heq]
            simp [World.setChannel, ← hhere]
      · refine hcoming ⟨q, g', ?_, hm, hle⟩
        rw [heq]
        split <;> simp [World.setPublisher, World.setChannel, Function.update_of_ne hne, hg']
    · refine hwaiting ⟨f, ?_, hm⟩
      rw [heq]
      split
      · simp only [World.setChannel, Function.update_apply]
        split
        · next h => exact List.mem_append_left _ (h ▸ hf)
        · exact hf
      · exact hf
  | deliver v =>
    have ⟨f, rest, hv, heq⟩ := next_deliver hnext
    subst heq
    rcases hstill htaken with hc | ⟨f', hf', hm⟩
    · exact absurd hc hcoming
    · rcases Decidable.em (w = v) with rfl | hne
      · refine ⟨rfl, f, by rw [hv]; rfl, ?_⟩
        rw [hv] at hf'
        rcases List.mem_cons.mp hf' with rfl | hrest
        · exact hm
        · exact absurd ⟨f', by simpa [World.setRegistry, World.setChannel] using hrest, hm⟩ hwaiting
      · refine absurd ⟨f', ?_, hm⟩ hwaiting
        simpa [World.setRegistry, World.setChannel, Function.update_of_ne hne] using hf'
  | subscribe v slot url' lastEventId =>
    cases hnext
    exact absurd hafter hbefore
  | unsubscribe v slot =>
    cases hnext
    exact absurd hafter hbefore
  | drain v slot =>
    cases hnext
    exact absurd hafter hbefore

/-- A frame read is not there to be read again. -/
theorem gone_of_reads (h : Sound url s) {l : Label} (hnext : next url workers s l = some s')
    (hreads : Reads w m s l) : Gone w m s' := by
  have ⟨hl, f, hhead, hm⟩ := hreads
  subst hl
  have ⟨f', rest, hv, heq⟩ := next_deliver hnext
  rw [hv, List.head?_cons, Option.some.injEq] at hhead
  subst hhead
  have hmem : f' ∈ s.channels w := by simp [hv]
  subst heq
  refine ⟨hm ▸ (h.waiting w f' hmem).2.2, ?_, ?_⟩
  · rintro ⟨p, g, hg, heq, hle⟩
    have := h.written p g w hg f' hmem (hm.trans heq.symm)
    omega
  · rintro ⟨f, hf, heq⟩
    have hrest : f ∈ rest := by simpa [World.setRegistry, World.setChannel] using hf
    have hnodup := h.nodup w
    rw [hv, List.map_cons, List.nodup_cons] at hnodup
    exact hnodup.1 (List.mem_map.mpr ⟨f, hrest, heq.trans hm.symm⟩)

/-- A frame about to be read has not gone. -/
theorem not_gone_of_reads {l : Label} (hreads : Reads w m s l) : ¬ Gone w m s := by
  rintro ⟨_, _, hwaiting⟩
  have ⟨_, f, hhead, hm⟩ := hreads
  exact hwaiting ⟨f, List.mem_of_mem_head? hhead, hm⟩

end Passing

/-! ## A subscriber -/

/-- The slot's row at worker `w`. -/
def row (w : Nat) (slot : Int) (s : World) : Subscription := (s.registries w).slots slot

/-- The slot streams `url` at worker `w`. -/
def Subscribed (w : Nat) (slot : Int) (url : Bytes) (s : World) : Prop :=
  (s.registries w).inRange slot = true ∧ (row w slot s).isStreaming = true ∧
    (row w slot s).filterUrl = url

/-- The label subscribes the slot anew, or ends its subscription. -/
def Touches (w : Nat) (slot : Int) (l : Label) : Prop :=
  (∃ url lastEventId, l = .subscribe w slot url lastEventId) ∨ l = .unsubscribe w slot

/-- What the worker reads at this step, if anything, fits the slot's outbox. -/
def Fits (w : Nat) (slot : Int) (s : World) (l : Label) : Prop :=
  l = .deliver w → ∀ f, (s.channels w).head? = some f → (row w slot s).hasRoom f.frame = true

/-- The worker reads the frame numbered `m` at this step and queues it for the slot. -/
def Queues (w : Nat) (slot : Int) (m : Int) (s : World) (l : Label) : Prop :=
  l = .deliver w ∧ ∃ f, (s.channels w).head? = some f ∧ f.eventId = m ∧
    (s.registries w).notified f.url f.eventId f.frame slot = [f.frame]

theorem Queues.reads {w : Nat} {slot m : Int} {s : World} {l : Label} (h : Queues w slot m s l) :
    Reads w m s l := by
  have ⟨hl, f, hhead, hm, _⟩ := h
  exact ⟨hl, f, hhead, hm⟩

section Subscriber

variable {url : Bytes} {workers w : Nat} {slot : Int} {s s' : World}

/-- A slot that streams takes a numbered frame that fits just when it is newer than the last. -/
theorem takes_iff {f : Published} (hsub : Subscribed w slot url s) (hid : 1 ≤ f.eventId)
    (hroom : (row w slot s).hasRoom f.frame = true) :
    (row w slot s).takes f.eventId f.frame = true ↔ (row w slot s).lastEventId < f.eventId := by
  have hnumbered : (f.eventId == NO_EVENT_ID) = false := by
    rw [beq_eq_false_iff_ne, NO_EVENT_ID]
    omega
  simp [Subscription.takes, Subscription.delivers, hsub.2.1, hroom, hnumbered]

/-- What a step may do to a subscriber: queue a newer frame and move the last id on to it, or leave
that id, what the worker read being no newer. -/
def Follows (w : Nat) (slot : Int) (url : Bytes) (s : World) (l : Label) (s' : World) : Prop :=
  Subscribed w slot url s' ∧
    ((∃ m, Queues w slot m s l ∧ (row w slot s).lastEventId < m ∧ (row w slot s').lastEventId = m) ∨
      ((row w slot s').lastEventId = (row w slot s).lastEventId ∧
        ∀ m, Reads w m s l → m ≤ (row w slot s).lastEventId))

/-- A step of its worker that reads nothing and leaves the row's filter. -/
theorem follows_of_kept (hsub : Subscribed w slot url s) {l : Label} (hnone : l ≠ .deliver w)
    (hrange : (s'.registries w).inRange slot = (s.registries w).inRange slot)
    (hstreaming : (row w slot s').isStreaming = (row w slot s).isStreaming)
    (hfilter : (row w slot s').filterUrl = (row w slot s).filterUrl)
    (hlast : (row w slot s').lastEventId = (row w slot s).lastEventId) : Follows w slot url s l s' := by
  refine ⟨⟨hrange.trans hsub.1, hstreaming.trans hsub.2.1, hfilter.trans hsub.2.2⟩, Or.inr ?_⟩
  exact ⟨hlast, fun m hreads => absurd hreads.1 hnone⟩

/-- The worker of a subscriber reads a frame of its url. -/
theorem follows_deliver {f : Published} {rest : List Published} (hsub : Subscribed w slot url s)
    (hw : s.channels w = f :: rest) (hurl : f.url = url) (hid : 1 ≤ f.eventId)
    (hroom : (row w slot s).hasRoom f.frame = true)
    (hs' : s'.registries w = ((s.registries w).notifyFrame f.url f.eventId f.frame).1) :
    Follows w slot url s (.deliver w) s' := by
  have ⟨hrange, hstreaming, hfilter⟩ := hsub
  have htakes := takes_iff hsub hid hroom
  have hnumbered : f.eventId ≠ NO_EVENT_ID := by
    rw [NO_EVENT_ID]
    omega
  have hrange' : (s'.registries w).inRange slot = true := by
    rw [hs', SSERegistry.inRange, SSERegistry.capacity_notifyFrame]
    exact hrange
  have hfilter' : (((s.registries w).slots slot).filterUrl == f.url) = true := by
    rw [beq_iff_eq, hurl]
    exact hfilter
  have hrow : row w slot s' =
      if (row w slot s).takes f.eventId f.frame then (row w slot s).queue f.eventId f.frame
      else row w slot s := by
    rw [row, hs', SSERegistry.slots_notifyFrame, hrange, hfilter', Bool.true_and, Bool.true_and]
    rfl
  rcases Decidable.em ((row w slot s).lastEventId < f.eventId) with hnewer | holder
  · rw [if_pos (htakes.mpr hnewer)] at hrow
    refine ⟨⟨hrange', by rw [hrow]; exact hstreaming, by rw [hrow]; exact hfilter⟩, Or.inl ?_⟩
    refine ⟨f.eventId, ⟨rfl, f, by rw [hw]; rfl, rfl, ?_⟩, hnewer, ?_⟩
    · rw [SSERegistry.notified, hrange, hfilter', Bool.true_and, Bool.true_and]
      exact if_pos (htakes.mpr hnewer)
    · rw [hrow, Subscription.queue, if_pos (bne_iff_ne.mpr hnumbered)]
  · rw [if_neg (fun h => holder (htakes.mp h))] at hrow
    refine ⟨⟨hrange', by rw [hrow]; exact hstreaming, by rw [hrow]; exact hfilter⟩, Or.inr ?_⟩
    refine ⟨by rw [hrow], ?_⟩
    rintro m ⟨_, f', hhead, rfl⟩
    rw [hw, List.head?_cons, Option.some.injEq] at hhead
    rw [← hhead]
    omega

/-- **What a step does to a subscriber.** -/
theorem Subscribed.next (hsound : Sound url s) (hsub : Subscribed w slot url s) {l : Label}
    (hnext : next url workers s l = some s') (hstays : ¬ Touches w slot l) (hfits : Fits w slot s l) :
    Follows w slot url s l s' := by
  have hsame : s'.registries w = s.registries w → l ≠ .deliver w → Follows w slot url s l s' := by
    intro hregistry hnone
    apply follows_of_kept hsub hnone <;> simp only [row, hregistry]
  cases l with
  | take p frame =>
    obtain ⟨_, heq⟩ := next_take hnext
    exact hsame (by rw [heq]; rfl) Label.noConfusion
  | write p taken =>
    obtain ⟨g, _, _, heq⟩ := next_write hnext
    exact hsame (by rw [heq]; split <;> rfl) Label.noConfusion
  | deliver v =>
    obtain ⟨f, rest, hv, heq⟩ := next_deliver hnext
    rcases Decidable.em (w = v) with rfl | hne
    · have hhead : (s.channels w).head? = some f := by rw [hv]; rfl
      obtain ⟨hurl, hid, _⟩ := hsound.waiting w f (List.mem_of_mem_head? hhead)
      apply follows_deliver hsub hv hurl hid (hfits rfl f hhead)
      simp [heq, World.setRegistry, World.setChannel]
    · apply hsame
      · simp [heq, World.setRegistry, World.setChannel, Function.update_of_ne hne]
      · intro hl
        cases hl
        exact hne rfl
  | subscribe v slot' url' lastEventId =>
    cases hnext
    rcases Decidable.em (w = v) with rfl | hne
    · -- another slot's subscription
      have hother : slot ≠ slot' := by
        rintro rfl
        exact hstays (Or.inl ⟨url', lastEventId, rfl⟩)
      apply follows_of_kept hsub Label.noConfusion <;>
        simp [row, World.setRegistry, SSERegistry.inRange, SSERegistry.slots_subscribe, hother]
    · exact hsame (by simp [World.setRegistry, Function.update_of_ne hne]) Label.noConfusion
  | unsubscribe v slot' =>
    cases hnext
    rcases Decidable.em (w = v) with rfl | hne
    · have hother : slot ≠ slot' := by
        rintro rfl
        exact hstays (Or.inr rfl)
      apply follows_of_kept hsub Label.noConfusion <;>
        simp [row, World.setRegistry, SSERegistry.inRange, SSERegistry.slots_unsubscribe, hother]
    · exact hsame (by simp [World.setRegistry, Function.update_of_ne hne]) Label.noConfusion
  | drain v slot' =>
    cases hnext
    rcases Decidable.em (w = v) with rfl | hne
    · -- a drain empties an outbox and leaves the filter
      have hrow : ∀ r : SSERegistry, ∀ s : Int,
          ((r.drain slot').1.slots s).isStreaming = (r.slots s).isStreaming ∧
          ((r.drain slot').1.slots s).filterUrl = (r.slots s).filterUrl ∧
          ((r.drain slot').1.slots s).lastEventId = (r.slots s).lastEventId := by
        intro r s
        rw [SSERegistry.slots_drain]
        split
        · next h =>
          rw [Bool.and_eq_true, beq_iff_eq] at h
          rw [h.2]
          exact ⟨rfl, rfl, rfl⟩
        · exact ⟨rfl, rfl, rfl⟩
      obtain ⟨h1, h2, h3⟩ := hrow (s.registries w) slot
      apply follows_of_kept hsub Label.noConfusion <;>
        simp [row, World.setRegistry, SSERegistry.inRange, h1, h2, h3]
    · exact hsame (by simp [World.setRegistry, Function.update_of_ne hne]) Label.noConfusion

end Subscriber

/-! ## Whole runs -/

section Runs

variable {url : Bytes} {workers capacity : Nat}

theorem sound_run (e : (bus url workers capacity).Execution) :
    ∀ k ≤ e.labels.length, Sound url (e.state k) :=
  e.invariant (sound_init url workers capacity) fun _ _ _ h hnext => h.next hnext

/-- The `k`-th step of the run reads the frame numbered `m` at worker `w`. -/
def ReadAt (e : (bus url workers capacity).Execution) (w : Nat) (m : Int) (k : Nat) : Prop :=
  ∃ l, e.labels[k]? = some l ∧ Reads w m (e.state k) l

/-- The `k`-th step of the run queues the frame numbered `m` for the slot. -/
def QueuedAt (e : (bus url workers capacity).Execution) (w : Nat) (slot m : Int) (k : Nat) : Prop :=
  ∃ l, e.labels[k]? = some l ∧ Queues w slot m (e.state k) l

/-- From instant `i` to instant `j` of the run the slot stays subscribed to the bus's url at worker
`w`, past id `n`; what the worker reads fits its outbox, and the worker's channel takes every write. -/
structure Live (e : (bus url workers capacity).Execution) (w : Nat) (slot n : Int) (i j : Nat) :
    Prop where
  worker : w < workers
  le : i ≤ j
  inRun : j ≤ e.labels.length
  subscribed : Subscribed w slot url (e.state i)
  past : (row w slot (e.state i)).lastEventId = n
  stays : ∀ k l, i ≤ k → k < j → e.labels[k]? = some l → ¬ Touches w slot l
  room : ∀ k l, i ≤ k → k < j → e.labels[k]? = some l → Fits w slot (e.state k) l
  takes : ∀ k l, i ≤ k → k < j → e.labels[k]? = some l → ¬ Refuses w (e.state k) l

variable {e : (bus url workers capacity).Execution} {w : Nat} {slot n : Int} {i j : Nat}

/-- A frame that was to come and is gone was read in between. -/
theorem Live.read (h : Live e w slot n i j) {m : Int} (hbefore : (e.state i).counter < m)
    (hgone : Gone w m (e.state j)) : ∃ a, i ≤ a ∧ a < j ∧ ReadAt e w m a := by
  have hnot : ¬ Gone w m (e.state i) := fun hg => absurd hg.1 (by omega)
  have ⟨a, hia, haj, hstart, hlast⟩ := LabelledSystem.Execution.last_entry h.le hnot hgone
  have ⟨l, hl⟩ := e.exists_label (Nat.lt_of_lt_of_le haj h.inRun)
  exact ⟨a, hia, haj, l, hl, reads_of_gone h.worker (e.steps hl) hstart
    (hlast (a + 1) (by omega) (by omega)) (h.takes a l hia haj hl)⟩

theorem Live.subscribedAt (h : Live e w slot n i j) {k : Nat} (hik : i ≤ k) (hkj : k ≤ j) :
    Subscribed w slot url (e.state k) := by
  refine e.stays hik (hkj.trans h.inRun) h.subscribed ?_
  intro a l hia hak hl hsub
  exact (hsub.next (sound_run e a (by have := h.inRun; omega)) (e.steps hl)
    (h.stays a l hia (by omega) hl) (h.room a l hia (by omega) hl)).1

/-- Every step of the stretch moves the subscriber on, or leaves it. -/
theorem Live.follows (h : Live e w slot n i j) {k : Nat} {l : Label} (hik : i ≤ k) (hkj : k < j)
    (hl : e.labels[k]? = some l) : Follows w slot url (e.state k) l (e.state (k + 1)) :=
  (h.subscribedAt hik (by omega)).next (sound_run e k (by have := h.inRun; omega)) (e.steps hl)
    (h.stays k l hik hkj hl) (h.room k l hik hkj hl)

/-- The last id never falls. -/
theorem Live.lastEventId_mono (h : Live e w slot n i j) {a b : Nat} (hia : i ≤ a) (hab : a ≤ b)
    (hbj : b ≤ j) : (row w slot (e.state a)).lastEventId ≤ (row w slot (e.state b)).lastEventId := by
  have hstep : ∀ k l, a ≤ k → k < b → e.labels[k]? = some l →
      (row w slot (e.state a)).lastEventId ≤ (row w slot (e.state k)).lastEventId →
      (row w slot (e.state a)).lastEventId ≤ (row w slot (e.state (k + 1))).lastEventId := by
    intro k l hak hkb hl hle
    rcases (h.follows (hia.trans hak) (by omega) hl).2 with ⟨m, _, hlt, heq⟩ | ⟨heq, _⟩
    · omega
    · omega
  exact e.stays (P := fun s => (row w slot (e.state a)).lastEventId ≤ (row w slot s).lastEventId) hab
    (hbj.trans h.inRun) (Int.le_refl _) hstep

/-- A frame queued is newer than the last, and the last from then on. -/
theorem Live.queued (h : Live e w slot n i j) {m : Int} {k : Nat} (hik : i ≤ k) (hkj : k < j)
    (hq : QueuedAt e w slot m k) :
    (row w slot (e.state k)).lastEventId < m ∧ (row w slot (e.state (k + 1))).lastEventId = m := by
  have ⟨l, hl, hqueues⟩ := hq
  have ⟨hlabel, f, hhead, hm, hnotified⟩ := hqueues
  rcases (h.follows hik hkj hl).2 with ⟨m', ⟨_, f', hhead', hm', _⟩, hlt, heq⟩ | ⟨_, holder⟩
  · rw [hhead, Option.some.injEq] at hhead'
    subst hhead'
    have hsame : m' = m := hm'.symm.trans hm
    exact hsame ▸ ⟨hlt, heq⟩
  · -- queued, it was newer than the last
    exfalso
    have hle := holder m hqueues.reads
    have hsub := h.subscribedAt hik (Nat.le_of_lt hkj)
    have hsound := sound_run e k (by have := h.inRun; omega)
    have hid := (hsound.waiting w f (List.mem_of_mem_head? hhead)).2.1
    have htakes := takes_iff hsub hid (h.room k l hik hkj hl hlabel f hhead)
    rw [SSERegistry.notified] at hnotified
    split at hnotified
    · next hcond =>
      rw [Bool.and_eq_true, Bool.and_eq_true] at hcond
      have := htakes.mp hcond.2.2
      omega
    · cases hnotified

/-- The ids queued for a live subscriber ascend. -/
theorem Live.ascending (h : Live e w slot n i j) {m m' : Int} {k k' : Nat} (hik : i ≤ k)
    (hkk' : k < k') (hk'j : k' < j) (hq : QueuedAt e w slot m k) (hq' : QueuedAt e w slot m' k') :
    m < m' := by
  have hfirst := (h.queued hik (by omega) hq).2
  have hsecond := (h.queued (by omega) hk'j hq').1
  have hmono := h.lastEventId_mono (show i ≤ k + 1 by omega) (show k + 1 ≤ k' by omega) (by omega)
  omega

/-- Where a live subscriber stands is where it began, or at a frame queued for it since. -/
theorem Live.stands (h : Live e w slot n i j) {k : Nat} (hik : i ≤ k) (hkj : k ≤ j) :
    (row w slot (e.state k)).lastEventId = n ∨
      ∃ a, i ≤ a ∧ a < k ∧ QueuedAt e w slot (row w slot (e.state k)).lastEventId a := by
  induction k, hik using Nat.le_induction with
  | base => exact Or.inl h.past
  | succ k hik ih =>
    have ⟨l, hl⟩ := e.exists_label (show k < e.labels.length by have := h.inRun; omega)
    rcases (h.follows hik (by omega) hl).2 with ⟨m, hqueues, _, heq⟩ | ⟨heq, _⟩
    · exact Or.inr ⟨k, hik, Nat.lt_succ_self k, l, hl, heq ▸ hqueues⟩
    · rw [heq]
      rcases ih (by omega) with hn | ⟨a, hia, hak, hq⟩
      · exact Or.inl hn
      · exact Or.inr ⟨a, hia, by omega, hq⟩

/-- **A frame is queued for a live subscriber exactly once, unless a newer one was before it
arrived**, and the ids queued for the subscriber ascend. The frame's id was taken after instant `i`
and is above the one the slot subscribed at; by instant `j` its publisher has written to the worker's
channel and the worker has read it. -/
theorem queued_unless_overtaken (h : Live e w slot n i j) {m : Int}
    (hafter : (e.state i).counter < m) (hn : n < m) (hgone : Gone w m (e.state j)) :
    ((∃ k, (i ≤ k ∧ k < j ∧ QueuedAt e w slot m k) ∧
        ∀ k', i ≤ k' ∧ k' < j ∧ QueuedAt e w slot m k' → k' = k) ∨
      ∃ a, i ≤ a ∧ a < j ∧ ReadAt e w m a ∧
        ∃ k m', i ≤ k ∧ k < a ∧ m < m' ∧ QueuedAt e w slot m' k) ∧
    ∀ k k' m₁ m₂, i ≤ k → k < k' → k' < j → QueuedAt e w slot m₁ k → QueuedAt e w slot m₂ k' →
      m₁ < m₂ := by
  refine ⟨?_, fun k k' m₁ m₂ hik hkk' hk'j hq hq' => h.ascending hik hkk' hk'j hq hq'⟩
  have ⟨a, hia, haj, l, hl, hreads⟩ := h.read hafter hgone
  rcases (h.follows hia haj hl).2 with ⟨m', hqueues, _, _⟩ | ⟨_, holder⟩
  · -- what the step reads is the frame itself
    have hsame : m' = m := by
      have ⟨_, f, hhead, hm, _⟩ := hqueues
      have ⟨_, f', hhead', hm'⟩ := hreads
      rw [hhead, Option.some.injEq] at hhead'
      rw [← hm, ← hm', hhead']
    subst hsame
    refine Or.inl ⟨a, ⟨hia, haj, l, hl, hqueues⟩, ?_⟩
    rintro k' ⟨hik', hk'j, hq'⟩
    rcases Nat.lt_trichotomy k' a with hlt | heq | hgt
    · exact absurd (h.ascending hik' hlt haj hq' ⟨l, hl, hqueues⟩) (Int.lt_irrefl _)
    · exact heq
    · exact absurd (h.ascending hia hgt hk'j ⟨l, hl, hqueues⟩ hq') (Int.lt_irrefl _)
  · -- not queued: the slot stands at a frame no older, and not at this one, which is read once
    have hle := holder m hreads
    rcases h.stands hia (Nat.le_of_lt haj) with hat | ⟨k, hik, hka, hq⟩
    · omega
    · refine Or.inr ⟨a, hia, haj, ⟨l, hl, hreads⟩, k, _, hik, hka, ?_, hq⟩
      rcases Int.lt_or_eq_of_le hle with hlt | heq
      · exact hlt
      · exfalso
        have ⟨l', hl', hqueues'⟩ := hq
        rw [← heq] at hqueues'
        have hsound := sound_run e k (by have := h.inRun; omega)
        have hgone' := gone_of_reads hsound (e.steps hl') hqueues'.reads
        have hstill : Gone w m (e.state a) := by
          refine e.stays (show k + 1 ≤ a by omega) (by have := h.inRun; omega) hgone' ?_
          exact fun b l'' _ _ hl'' hg => hg.next (e.steps hl'')
        exact not_gone_of_reads hreads hstill

end Runs

/-! ## Two publishers, overtaken -/

/-- Ids 1 and 2 are taken in turn and written in the other order. -/
def overtaking : List Label :=
  [.subscribe 0 0 (ascii "/u") 0, .take 0 (ascii "a"), .take 1 (ascii "b"), .write 1 true,
    .write 0 true, .deliver 0, .deliver 0]

def overtaken : (bus (ascii "/u") 1 1).Execution :=
  LabelledSystem.Execution.ofRun _ overtaking rfl

theorem live_overtaken : Live overtaken 0 0 0 1 7 := by
  have hlabel : ∀ k l, 1 ≤ k → k < 7 → overtaken.labels[k]? = some l →
      l = .take 0 (ascii "a") ∨ l = .take 1 (ascii "b") ∨ l = .write 1 true ∨ l = .write 0 true ∨
        (l = .deliver 0 ∧ (k = 5 ∨ k = 6)) := by
    intro k l hk hk' hl
    obtain rfl | rfl | rfl | rfl | rfl | rfl :
      k = 1 ∨ k = 2 ∨ k = 3 ∨ k = 4 ∨ k = 5 ∨ k = 6 := by omega
    all_goals cases hl; simp
  constructor
  case worker => decide
  case le => decide
  case inRun => decide
  case subscribed => exact ⟨rfl, rfl, rfl⟩
  case past => rfl
  case stays =>
    rintro k l hk hk' hl (⟨url, lastEventId, rfl⟩ | rfl) <;>
      rcases hlabel k _ hk hk' hl with h | h | h | h | ⟨h, _⟩ <;> cases h
  case room =>
    rintro k l hk hk' hl rfl f hf
    rcases hlabel k _ hk hk' hl with h | h | h | h | ⟨_, rfl | rfl⟩
    · cases h
    · cases h
    · cases h
    · cases h
    · cases hf
      decide
    · cases hf
      decide
  case takes =>
    rintro k l hk hk' hl ⟨p, g, rfl, _⟩
    rcases hlabel k _ hk hk' hl with h | h | h | h | ⟨h, _⟩ <;> cases h

theorem gone_overtaken : Gone 0 1 (overtaken.state 7) := by
  refine ⟨by decide, ?_, ?_⟩
  · rintro ⟨p, g, hg, hm, hle⟩
    have hpublishers : (overtaken.state 7).publishers =
        Function.update (Function.update (Function.update (Function.update (fun _ => none)
          0 (some ⟨⟨ascii "/u", 1, ascii "a"⟩, 0⟩)) 1 (some ⟨⟨ascii "/u", 2, ascii "b"⟩, 0⟩))
          1 (some ⟨⟨ascii "/u", 2, ascii "b"⟩, 1⟩)) 0 (some ⟨⟨ascii "/u", 1, ascii "a"⟩, 1⟩) := rfl
    rw [hpublishers] at hg
    simp only [Function.update_apply] at hg
    split at hg
    · cases hg
      simp at hle
    · split at hg
      · cases hg
        simp at hm
      · cases hg
  · rintro ⟨f, hf, _⟩
    have hempty : (overtaken.state 7).channels 0 = [] := rfl
    rw [hempty] at hf
    cases hf

/-- The frame numbered 1 is not queued: the one numbered 2 was before it arrived. -/
theorem queued_unless_overtaken_here :
    ((∃ k, (1 ≤ k ∧ k < 7 ∧ QueuedAt overtaken 0 0 1 k) ∧
        ∀ k', 1 ≤ k' ∧ k' < 7 ∧ QueuedAt overtaken 0 0 1 k' → k' = k) ∨
      ∃ a, 1 ≤ a ∧ a < 7 ∧ ReadAt overtaken 0 1 a ∧
        ∃ k m', 1 ≤ k ∧ k < a ∧ 1 < m' ∧ QueuedAt overtaken 0 0 m' k) ∧
    ∀ k k' m₁ m₂, 1 ≤ k → k < k' → k' < 7 → QueuedAt overtaken 0 0 m₁ k →
      QueuedAt overtaken 0 0 m₂ k' → m₁ < m₂ :=
  queued_unless_overtaken live_overtaken (by decide) (by decide) gone_overtaken

/-- Not every frame published to a live subscriber is queued for it. -/
theorem not_all_queued :
    ¬ ∀ (url : Bytes) (workers capacity : Nat) (e : (bus url workers capacity).Execution) (w : Nat)
      (slot n : Int) (i j : Nat) (m : Int), Live e w slot n i j → (e.state i).counter < m → n < m →
      Gone w m (e.state j) →
      ∃ k, (i ≤ k ∧ k < j ∧ QueuedAt e w slot m k) ∧
        ∀ k', i ≤ k' ∧ k' < j ∧ QueuedAt e w slot m k' → k' = k := by
  intro hall
  have ⟨k, ⟨hk, hk', l, hl, hlabel, f, hhead, hm, hnotified⟩, _⟩ :=
    hall _ _ _ overtaken 0 0 0 1 7 1 live_overtaken (by decide) (by decide) gone_overtaken
  subst hlabel
  obtain rfl | rfl | rfl | rfl | rfl | rfl :
    k = 1 ∨ k = 2 ∨ k = 3 ∨ k = 4 ∨ k = 5 ∨ k = 6 := by omega
  · cases hl
  · cases hl
  · cases hl
  · cases hl
  · cases hhead
    cases hm
  · cases hhead
    revert hnotified
    decide

end MojoHttp.EventBus
