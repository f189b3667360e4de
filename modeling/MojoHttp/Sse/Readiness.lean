import MojoHttp.Lib.Execution
import MojoHttp.Lib.Marked
import MojoHttp.Sse.Subscriptions

/-!
# The slots a drain has to visit (`sse/registry.mojo`, `ws.mojo`)

The loop drains the slots that are named to it and no other. What a registry and a hub keep for that are
parallel to their rows: a list of slots, a mark for each, a count.

* **`SSERegistry.Sound.step`**, **`WSHub.Sound.step`** — every call keeps them so.
* **`SSERegistry.Step.names`**, **`WSHub.Call.names`** — a slot that gains bytes is named.
* **`registries_together`** — the four views agree in every state of every run.
-/

namespace MojoHttp

namespace SSERegistry

/-- A call on the registry; `mark_ready` is called from outside too. -/
inductive Step where
  | call (c : Call)
  | markReady (slot : Int)
  deriving Repr, DecidableEq

def step (r : SSERegistry) : Step → SSERegistry
  | .call c => r.call c
  | .markReady slot => r.markReady slot

def system (capacity : Nat) : LabelledSystem SSERegistry Step :=
  ⟨new capacity, fun r l => some (r.step l)⟩

/-- The slots streaming, one by one. -/
def streaming (r : SSERegistry) : Int :=
  ((slotRange r.capacity).countP fun slot => (r.slots slot).isStreaming : Nat)

/-- The frame that the call is given. -/
def Step.frame? : Step → Option Bytes
  | .call (.notifyFrame _ _ frame) => some frame
  | .call (.queueFrame _ _ frame) => some frame
  | _ => none

/-- The slot's outbox gains bytes, or the slot is unsubscribed. -/
def Gains (r : SSERegistry) (l : Step) (s : Int) : Prop :=
  (r.slots s).pendingBuf.length < ((r.step l).slots s).pendingBuf.length ∨
    r.inRange s = true ∧ l = .call (.unsubscribe s)

def Step.subscribes (s : Int) : Step → Bool
  | .call (.subscribe slot _ _) => slot == s
  | _ => false

/-- The slot's subscription begins or ends. -/
def Step.turns (s : Int) : Step → Bool
  | .call (.subscribe slot _ _) => slot == s
  | .call (.unsubscribe slot) => slot == s
  | _ => false

/-! ## One registry -/

structure Sound (r : SSERegistry) : Prop where
  active : r.active = r.streaming
  marked : Marked r.ready r.named
  bounded : ∀ s, (r.slots s).pendingBuf.length ≤ MAX_PENDING_BYTES

theorem isSlotStreaming_iff {r : SSERegistry} {s : Int} :
    r.isSlotStreaming s = true ↔ r.inRange s = true ∧ (r.slots s).isStreaming = true := by
  unfold isSlotStreaming
  cases r.inRange s with
  | false => simp
  | true => simp

theorem streaming_setSlot {r : SSERegistry} {slot : Int} (hin : r.inRange slot = true)
    (sub : Subscription) :
    (r.setSlot slot sub).streaming =
      r.streaming - (if (r.slots slot).isStreaming then 1 else 0) + if sub.isStreaming then 1 else 0 := by
  have hmem : slot ∈ slotRange r.capacity := by
    rw [mem_slotRange]
    simpa [inRange] using hin
  exact countP_update (nodup_slotRange _) hmem Subscription.isStreaming r.slots sub

theorem streaming_same {r : SSERegistry} {slot : Int} (hin : r.inRange slot = true)
    {sub : Subscription} (hsame : sub.isStreaming = (r.slots slot).isStreaming) :
    (r.setSlot slot sub).streaming = r.streaming := by
  rw [streaming_setSlot hin, hsame]
  omega

theorem streaming_markReady (r : SSERegistry) (slot : Int) :
    (r.markReady slot).streaming = r.streaming := by
  unfold streaming
  rw [capacity_markReady, slots_markReady]

theorem active_markReady (r : SSERegistry) (slot : Int) : (r.markReady slot).active = r.active := by
  unfold markReady
  split <;> rfl

theorem marked_markReady {r : SSERegistry} (hmarked : Marked r.ready r.named) (slot : Int) :
    Marked (r.markReady slot).ready (r.markReady slot).named := by
  unfold markReady
  split
  · exact hmarked
  · next hnew =>
    rw [Bool.or_eq_true, not_or, Bool.not_eq_true, Bool.not_eq_true] at hnew
    exact hmarked.add hnew.2

theorem mem_markReady_of_mem {r : SSERegistry} (slot : Int) {s : Int} (hs : s ∈ r.ready) :
    s ∈ (r.markReady slot).ready := by
  unfold markReady
  split
  · exact hs
  · exact List.mem_append_left _ hs

/-- **A slot that is marked is named.** -/
theorem mem_markReady {r : SSERegistry} (hmarked : Marked r.ready r.named) {slot : Int}
    (hin : r.inRange slot = true) : slot ∈ (r.markReady slot).ready := by
  unfold markReady
  rw [hin, Bool.not_true, Bool.false_or]
  split
  · next hnamed => exact (hmarked.mem slot).mpr hnamed
  · exact List.mem_append_right _ (List.mem_singleton_self slot)

theorem Sound.markReady {r : SSERegistry} (hr : r.Sound) (slot : Int) : (r.markReady slot).Sound where
  active := by rw [active_markReady, streaming_markReady, hr.active]
  marked := marked_markReady hr.marked slot
  bounded s := by
    rw [slots_markReady]
    exact hr.bounded s

/-- The outbox of one slot is exchanged for one that holds no more than it may. -/
theorem Sound.setSlot {r : SSERegistry} (hr : r.Sound) {slot : Int} (hin : r.inRange slot = true)
    {sub : Subscription} (hsame : sub.isStreaming = (r.slots slot).isStreaming)
    (hroom : sub.pendingBuf.length ≤ MAX_PENDING_BYTES) : (r.setSlot slot sub).Sound where
  active := (hr.active).trans (streaming_same hin hsame).symm
  marked := hr.marked
  bounded s := by
    rcases Decidable.em (s = slot) with rfl | hne
    · rw [slots_setSlot_self]
      exact hroom
    · rw [slots_setSlot_of_ne r hne]
      exact hr.bounded s

theorem Sound.enqueue {r : SSERegistry} (hr : r.Sound) {slot : Int} (hin : r.inRange slot = true)
    {eventId : Int} {frame : Bytes} (htakes : (r.slots slot).takes eventId frame = true) :
    (r.enqueue slot eventId frame).Sound := by
  unfold Subscription.takes Subscription.hasRoom at htakes
  rw [Bool.and_eq_true, decide_eq_true_eq] at htakes
  apply Sound.markReady
  refine hr.setSlot hin rfl ?_
  show ((r.slots slot).pendingBuf ++ frame).length ≤ _
  rw [List.length_append]
  exact htakes.2

/-- What every turn of `notify_frame` keeps that queues the frame. -/
theorem notifyFrame_induction {P : SSERegistry → Prop} {r : SSERegistry} {url : Bytes} {eventId : Int}
    {frame : Bytes} (hr : P r)
    (hstep : ∀ r' slot, r'.capacity = r.capacity → r'.inRange slot = true →
      (r'.slots slot).takes eventId frame = true → P r' → P (r'.enqueue slot eventId frame)) :
    P (r.notifyFrame url eventId frame).1 := by
  have hloop : ∀ (slots : List Int) (acc : SSERegistry × Nat), (∀ s ∈ slots, s ∈ slotRange r.capacity) →
      acc.1.capacity = r.capacity → P acc.1 → P (slots.foldl (notifySlot url eventId frame) acc).1 := by
    intro slots
    induction slots with
    | nil => exact fun _ _ _ hp => hp
    | cons slot slots ih =>
      intro acc hslots hcap hp
      have hrest : ∀ s ∈ slots, s ∈ slotRange r.capacity := fun s hs => hslots s (List.mem_cons_of_mem _ hs)
      rw [List.foldl_cons, notifySlot_eq]
      split
      · next htakes =>
        have hin : acc.1.inRange slot = true := by
          unfold inRange
          rw [hcap, Bool.and_eq_true, decide_eq_true_eq, decide_eq_true_eq]
          exact mem_slotRange.mp (hslots slot List.mem_cons_self)
        apply ih _ hrest
        · rw [capacity_enqueue, hcap]
        · exact hstep acc.1 slot hcap hin (Bool.and_eq_true_iff.mp htakes).2 hp
      · exact ih _ hrest hcap hp
  exact hloop _ (r, 0) (fun _ hs => hs) rfl hr

theorem Sound.notifyFrame {r : SSERegistry} (hr : r.Sound) (url : Bytes) (eventId : Int) (frame : Bytes) :
    (r.notifyFrame url eventId frame).1.Sound :=
  notifyFrame_induction hr fun _ _ _ hin htakes hr' => hr'.enqueue hin htakes

theorem Sound.subscribe {r : SSERegistry} (hr : r.Sound) (slot : Int) (url : Bytes) (lastEventId : Int) :
    (r.subscribe slot url lastEventId).Sound := by
  unfold SSERegistry.subscribe
  cases hin : r.inRange slot with
  | false => exact hr
  | true =>
    have hroom := hr.bounded slot
    dsimp only
    cases hstreaming : (r.slots slot).isStreaming with
    | true => exact hr.setSlot hin hstreaming.symm hroom
    | false =>
      refine ⟨?_, hr.marked, fun s => ?_⟩
      · -- one more
        have hcount := streaming_setSlot hin { r.slots slot with
          isStreaming := true, filterUrl := url, lastEventId := lastEventId }
        rw [hstreaming, if_neg Bool.false_ne_true, if_pos rfl, ← hr.active, Int.sub_zero] at hcount
        exact hcount.symm
      · rcases Decidable.em (s = slot) with rfl | hne
        · show (Function.update r.slots s _ s).pendingBuf.length ≤ _
          rw [Function.update_self]
          exact hroom
        · show (Function.update r.slots slot _ s).pendingBuf.length ≤ _
          rw [Function.update_of_ne hne]
          exact hr.bounded s

theorem Sound.unsubscribe {r : SSERegistry} (hr : r.Sound) (slot : Int) : (r.unsubscribe slot).Sound := by
  unfold SSERegistry.unsubscribe
  cases hin : r.inRange slot with
  | false => exact hr
  | true =>
    dsimp only
    apply Sound.markReady
    cases hstreaming : (r.slots slot).isStreaming with
    | false => exact hr.setSlot hin hstreaming.symm (Nat.zero_le _)
    | true =>
      refine ⟨?_, hr.marked, fun s => ?_⟩
      · -- one less
        have hcount := streaming_setSlot hin ({} : Subscription)
        rw [hstreaming, if_pos rfl, if_neg Bool.false_ne_true, ← hr.active, Int.add_zero] at hcount
        exact hcount.symm
      · rcases Decidable.em (s = slot) with rfl | hne
        · show (Function.update r.slots s _ s).pendingBuf.length ≤ _
          rw [Function.update_self]
          exact Nat.zero_le _
        · show (Function.update r.slots slot _ s).pendingBuf.length ≤ _
          rw [Function.update_of_ne hne]
          exact hr.bounded s

theorem Sound.step {r : SSERegistry} (hr : r.Sound) (l : Step) : (r.step l).Sound := by
  cases l with
  | markReady slot => exact hr.markReady slot
  | call c =>
    cases c with
    | subscribe slot url lastEventId => exact hr.subscribe slot url lastEventId
    | unsubscribe slot => exact hr.unsubscribe slot
    | notifyFrame url eventId frame => exact hr.notifyFrame url eventId frame
    | queueFrame slot eventId frame =>
      show (r.queueFrame slot eventId frame).1.Sound
      rw [queueFrame_eq]
      split
      · next htakes =>
        have ⟨hin, htakes⟩ := Bool.and_eq_true_iff.mp htakes
        exact hr.enqueue hin htakes
      · exact hr
    | drain slot =>
      show (r.drain slot).1.Sound
      unfold SSERegistry.drain
      cases hin : r.inRange slot with
      | false => exact hr
      | true => exact hr.setSlot hin rfl (Nat.zero_le _)
    | takeReady => exact ⟨hr.active, hr.marked.take, hr.bounded⟩

theorem sound_new (capacity : Nat) : (new capacity).Sound := by
  refine ⟨?_, Marked.nil, fun _ => Nat.zero_le _⟩
  have hnone : ((slotRange capacity).countP fun slot => ((new capacity).slots slot).isStreaming) = 0 :=
    List.countP_eq_zero.mpr fun _ _ => Bool.false_ne_true
  show (0 : Int) = ((slotRange capacity).countP fun slot => ((new capacity).slots slot).isStreaming : Nat)
  rw [hnone]
  rfl

/-! ### Who is named -/

theorem mem_enqueue {r : SSERegistry} (hmarked : Marked r.ready r.named) {slot : Int}
    (hin : r.inRange slot = true) (eventId : Int) (frame : Bytes) :
    slot ∈ (r.enqueue slot eventId frame).ready :=
  mem_markReady (r := r.setSlot slot _) hmarked hin

theorem mem_enqueue_of_mem {r : SSERegistry} (slot eventId : Int) (frame : Bytes) {s : Int}
    (hs : s ∈ r.ready) : s ∈ (r.enqueue slot eventId frame).ready :=
  mem_markReady_of_mem (r := r.setSlot slot _) slot hs

/-- The slots named stay so, up to the next take. -/
theorem mem_step_of_mem {r : SSERegistry} {l : Step} (hl : l ≠ .call .takeReady) {s : Int}
    (hs : s ∈ r.ready) : s ∈ (r.step l).ready := by
  cases l with
  | markReady slot => exact mem_markReady_of_mem slot hs
  | call c =>
    cases c with
    | subscribe slot url lastEventId =>
      show s ∈ (r.subscribe slot url lastEventId).ready
      unfold SSERegistry.subscribe
      split
      · exact hs
      · dsimp only
        split
        · exact hs
        · exact hs
    | unsubscribe slot =>
      show s ∈ (r.unsubscribe slot).ready
      unfold SSERegistry.unsubscribe
      split
      · exact hs
      · apply mem_markReady_of_mem
        split
        · exact hs
        · exact hs
    | notifyFrame url eventId frame =>
      exact notifyFrame_induction (P := fun r => s ∈ r.ready) hs fun _ slot _ _ _ hs' =>
        mem_enqueue_of_mem slot eventId frame hs'
    | queueFrame slot eventId frame =>
      show s ∈ (r.queueFrame slot eventId frame).1.ready
      rw [queueFrame_eq]
      split
      · exact mem_enqueue_of_mem slot eventId frame hs
      · exact hs
    | drain slot =>
      show s ∈ (r.drain slot).1.ready
      unfold SSERegistry.drain
      split
      · exact hs
      · exact hs
    | takeReady => exact absurd rfl hl

/-- **A slot that gains bytes, or is unsubscribed, is named.** -/
theorem Step.names {r : SSERegistry} (hr : r.Sound) {l : Step} {s : Int} (hgains : r.Gains l s) :
    s ∈ (r.step l).ready := by
  -- what is left as it was has gained nothing
  have hsame : ∀ {r' : SSERegistry}, (r'.slots s).pendingBuf = (r.slots s).pendingBuf →
      ¬ (r.slots s).pendingBuf.length < (r'.slots s).pendingBuf.length := by
    intro r' heq hlt
    rw [heq] at hlt
    exact Nat.lt_irrefl _ hlt
  rcases hgains with hmore | ⟨hin, rfl⟩
  · cases l with
    | markReady slot => exact absurd hmore (hsame (by rw [step, slots_markReady]))
    | call c =>
      cases c with
      | subscribe slot url lastEventId =>
        exact absurd hmore (hsame (pending_subscribe r slot url lastEventId s))
      | unsubscribe slot =>
        have hpending : ((r.unsubscribe slot).slots s).pendingBuf = _ := pending_unsubscribe r slot s
        have hmore : _ < ((r.unsubscribe slot).slots s).pendingBuf.length := hmore
        rw [hpending] at hmore
        split at hmore
        · exact absurd hmore (Nat.not_lt_zero _)
        · exact absurd hmore (Nat.lt_irrefl _)
      | notifyFrame url eventId frame =>
        have hnamed : s ∈ (r.notifyFrame url eventId frame).1.ready ∨
            ((r.notifyFrame url eventId frame).1.slots s).pendingBuf = (r.slots s).pendingBuf := by
          have hboth : (r.notifyFrame url eventId frame).1.Sound ∧
              (s ∈ (r.notifyFrame url eventId frame).1.ready ∨
                ((r.notifyFrame url eventId frame).1.slots s).pendingBuf = (r.slots s).pendingBuf) := by
            refine notifyFrame_induction (P := fun r' => r'.Sound ∧
              (s ∈ r'.ready ∨ (r'.slots s).pendingBuf = (r.slots s).pendingBuf)) ⟨hr, Or.inr rfl⟩
              fun r' slot _ hin htakes hr' => ⟨hr'.1.enqueue hin htakes, ?_⟩
            rcases Decidable.em (s = slot) with rfl | hne
            · exact Or.inl (mem_enqueue hr'.1.marked hin eventId frame)
            · refine hr'.2.imp (mem_enqueue_of_mem slot eventId frame) fun heq => ?_
              rw [slots_enqueue, if_neg hne]
              exact heq
          exact hboth.2
        exact hnamed.resolve_right fun heq => hsame heq hmore
      | queueFrame slot eventId frame =>
        have hmore : _ < ((r.queueFrame slot eventId frame).1.slots s).pendingBuf.length := hmore
        show s ∈ (r.queueFrame slot eventId frame).1.ready
        rw [queueFrame_eq] at hmore ⊢
        split at hmore
        · next htakes =>
          rw [if_pos htakes]
          rcases Decidable.em (s = slot) with rfl | hne
          · exact mem_enqueue hr.marked (Bool.and_eq_true_iff.mp htakes).1 eventId frame
          · rw [slots_enqueue, if_neg hne] at hmore
            exact absurd hmore (Nat.lt_irrefl _)
        · exact absurd hmore (Nat.lt_irrefl _)
      | drain slot =>
        have hmore : _ < ((r.drain slot).1.slots s).pendingBuf.length := hmore
        rw [slots_drain] at hmore
        split at hmore
        · exact absurd hmore (Nat.not_lt_zero _)
        · exact absurd hmore (Nat.lt_irrefl _)
      | takeReady => exact absurd hmore (Nat.lt_irrefl _)
  · show s ∈ (r.unsubscribe s).ready
    unfold SSERegistry.unsubscribe
    rw [hin, Bool.not_true, if_neg Bool.false_ne_true]
    dsimp only
    apply mem_markReady
    · show Marked (if _ then _ else r : SSERegistry).ready (if _ then _ else r : SSERegistry).named
      split
      · exact hr.marked
      · exact hr.marked
    · split
      · exact hin
      · exact hin

/-! ### What a slot holds, and what it has seen -/

/-- A call leaves an outbox as it is, puts its frame behind it, or empties it. -/
theorem pending_step (r : SSERegistry) (l : Step) (s : Int) :
    ∃ frames : List Bytes, (∀ frame ∈ frames, l.frame? = some frame) ∧
      (((r.step l).slots s).pendingBuf = (r.slots s).pendingBuf ++ frames.flatten ∨
        ((r.step l).slots s).pendingBuf = frames.flatten) := by
  have hkeep : ∀ {x : Bytes}, x = (r.slots s).pendingBuf → ∃ frames : List Bytes,
      (∀ frame ∈ frames, l.frame? = some frame) ∧
        (x = (r.slots s).pendingBuf ++ frames.flatten ∨ x = frames.flatten) := fun heq =>
    ⟨[], fun _ hf => (nomatch hf), Or.inl (heq.trans (List.append_nil _).symm)⟩
  have hempty : ∀ {x : Bytes} (b : Bool), (x = if b then [] else (r.slots s).pendingBuf) →
      ∃ frames : List Bytes, (∀ frame ∈ frames, l.frame? = some frame) ∧
        (x = (r.slots s).pendingBuf ++ frames.flatten ∨ x = frames.flatten) := by
    intro x b heq
    cases b with
    | true => exact ⟨[], fun _ hf => (nomatch hf), Or.inr heq⟩
    | false => exact hkeep heq
  cases l with
  | markReady slot => exact hkeep (by rw [step, slots_markReady])
  | call c =>
    cases c with
    | subscribe slot url lastEventId => exact hkeep (pending_subscribe r slot url lastEventId s)
    | unsubscribe slot => exact hempty _ (pending_unsubscribe r slot s)
    | notifyFrame url eventId frame =>
      refine ⟨r.notified url eventId frame s, fun f hf => ?_, Or.inl (pending_notifyFrame r url eventId frame s)⟩
      unfold notified at hf
      split at hf
      · exact congrArg some (List.mem_singleton.mp hf).symm
      · cases hf
    | queueFrame slot eventId frame =>
      refine ⟨_, fun f hf => ?_, Or.inl (pending_queueFrame r slot eventId frame s)⟩
      split at hf
      · exact congrArg some (List.mem_singleton.mp hf).symm
      · cases hf
    | drain slot =>
      refine hempty (r.inRange slot && s == slot) ?_
      show ((r.drain slot).1.slots s).pendingBuf = _
      rw [slots_drain]
      split
      · rfl
      · rfl
    | takeReady => exact hkeep rfl

theorem lastEventId_queue {sub : Subscription} {eventId : Int} {frame : Bytes}
    (htakes : sub.takes eventId frame = true) :
    sub.lastEventId ≤ (sub.queue eventId frame).lastEventId := by
  unfold Subscription.takes Subscription.delivers at htakes
  simp only [Bool.and_eq_true, Bool.or_eq_true, beq_iff_eq, decide_eq_true_eq] at htakes
  show sub.lastEventId ≤ if eventId != NO_EVENT_ID then eventId else sub.lastEventId
  split
  · next hnumbered =>
    rcases htakes.1.2 with hno | hnewer
    · exact absurd hno (bne_iff_ne.mp hnumbered)
    · exact Int.le_of_lt hnewer
  · exact Int.le_refl _

/-- **What a slot has seen is not taken back** while it stays subscribed. -/
theorem lastEventId_step (r : SSERegistry) {l : Step} {s : Int} (hl : l.turns s = false) :
    (r.slots s).lastEventId ≤ ((r.step l).slots s).lastEventId := by
  cases l with
  | markReady slot =>
    show _ ≤ ((r.markReady slot).slots s).lastEventId
    rw [slots_markReady]
  | call c =>
    cases c with
    | subscribe slot url lastEventId =>
      have hne : s ≠ slot := fun heq => by rw [heq, Step.turns, beq_self_eq_true] at hl; cases hl
      show _ ≤ ((r.subscribe slot url lastEventId).slots s).lastEventId
      rw [slots_subscribe, beq_false_of_ne hne, Bool.and_false, if_neg Bool.false_ne_true]
    | unsubscribe slot =>
      have hne : s ≠ slot := fun heq => by rw [heq, Step.turns, beq_self_eq_true] at hl; cases hl
      show _ ≤ ((r.unsubscribe slot).slots s).lastEventId
      rw [slots_unsubscribe, beq_false_of_ne hne, Bool.and_false, if_neg Bool.false_ne_true]
    | notifyFrame url eventId frame =>
      show _ ≤ ((r.notifyFrame url eventId frame).1.slots s).lastEventId
      rw [slots_notifyFrame]
      split
      · next htakes =>
        rw [Bool.and_eq_true, Bool.and_eq_true] at htakes
        exact lastEventId_queue htakes.2.2
      · exact Int.le_refl _
    | queueFrame slot eventId frame =>
      show _ ≤ ((r.queueFrame slot eventId frame).1.slots s).lastEventId
      rw [slots_queueFrame]
      split
      · next htakes =>
        rw [Bool.and_eq_true, Bool.and_eq_true, beq_iff_eq] at htakes
        rw [htakes.2]
        exact lastEventId_queue htakes.1.2
      · exact Int.le_refl _
    | drain slot =>
      show _ ≤ ((r.drain slot).1.slots s).lastEventId
      rw [slots_drain]
      split
      · next hself =>
        rw [Bool.and_eq_true, beq_iff_eq] at hself
        rw [hself.2]
      · exact Int.le_refl _
    | takeReady => exact Int.le_refl _

/-! ### Runs -/

/-- What the claim of four views that agree comes to, in one state of a run. -/
structure Together {capacity : Nat} (x : (system capacity).Execution) (k : ℕ) : Prop where
  active : (x.state k).active = (x.state k).streaming
  /-- Named is in the list, once. -/
  marked : Marked (x.state k).ready (x.state k).named
  /-- What has happened to a slot since the last take names it. -/
  owed : ∀ s i l, i < k → x.labels[i]? = some l → (x.state i).Gains l s →
    (∀ j, i < j → j < k → x.labels[j]? ≠ some (.call .takeReady)) → s ∈ (x.state k).ready
  whole : ∀ s, ∃ frames : List Bytes, (∀ frame ∈ frames, frame ∈ (x.labels.take k).filterMap Step.frame?) ∧
    ((x.state k).slots s).pendingBuf = frames.flatten
  bounded : ∀ s, ((x.state k).slots s).pendingBuf.length ≤ MAX_PENDING_BYTES
  lastSeen : ∀ s i, i ≤ k → (∀ j l, i ≤ j → j < k → x.labels[j]? = some l → l.turns s = false) →
    ((x.state i).slots s).lastEventId ≤ ((x.state k).slots s).lastEventId

def KeepsTogether {capacity : Nat} (x : (system capacity).Execution) : Prop :=
  ∀ k ≤ x.labels.length, Together x k

section

variable {capacity : Nat} {x : (system capacity).Execution} {k : ℕ}

theorem step_of_label {l : Step} (hl : x.labels[k]? = some l) : x.state (k + 1) = (x.state k).step l :=
  (Option.some.inj (x.steps hl)).symm

theorem sound_run (x : (system capacity).Execution) : ∀ k ≤ x.labels.length, (x.state k).Sound := by
  refine x.invariant (sound_new capacity) fun r l r' hr hnext => ?_
  rw [← Option.some.inj hnext]
  exact hr.step l

theorem together_run (x : (system capacity).Execution) : KeepsTogether x := by
  intro k hk
  have hsound := sound_run x
  have hnow := hsound k hk
  refine ⟨hnow.active, hnow.marked, fun s i l hik hl hgains hnone => ?_, fun s => ?_,
    hnow.bounded, fun s i hik hstays => ?_⟩
  · -- named at that call, and kept
    refine x.stays (P := fun r => s ∈ r.ready) (Nat.succ_le_of_lt hik) hk ?_ fun j l' hij hjk hl' hmem => ?_
    · rw [step_of_label hl]
      exact Step.names (hsound i (by omega)) hgains
    · rw [step_of_label hl']
      refine mem_step_of_mem (fun htake => ?_) hmem
      exact hnone j hij hjk (by rw [hl', htake])
  · refine x.made_of (fun r => (r.slots s).pendingBuf) Step.frame? rfl (fun r l r' hnext => ?_) hk
    rw [← Option.some.inj hnext]
    exact pending_step r l s
  · refine x.stays (P := fun r => ((x.state i).slots s).lastEventId ≤ (r.slots s).lastEventId) hik hk
      (Int.le_refl _) fun j l' hij hjk hl' hle => ?_
    rw [step_of_label hl']
    exact hle.trans (lastEventId_step _ (hstays j l' hij hjk hl'))

end

end SSERegistry

/-! ## The hub -/

namespace WSHub

def system (capacity : Nat) : LabelledSystem WSHub Call := ⟨new capacity, fun h c => some (h.call c)⟩

/-- `count`. -/
def count (h : WSHub) : Nat :=
  (slotRange h.capacity).foldl (fun n slot => if (h.slots slot).connected then n + 1 else n) 0

def Call.frame? : Call → Option Bytes
  | .send _ frame => some frame
  | .broadcast _ frame _ => some frame
  | .deliverPeer frame => some frame
  | _ => none

/-- The slot's outbox gains bytes. -/
def Gains (h : WSHub) (c : Call) (s : Int) : Prop :=
  (h.slots s).outbox.length < ((h.call c).slots s).outbox.length

structure Sound (h : WSHub) : Prop where
  marked : Marked h.ready h.named
  bounded : ∀ s, (h.slots s).outbox.length ≤ MAX_PENDING_BYTES

theorem count_eq (h : WSHub) : h.count = (slotRange h.capacity).countP fun slot => (h.slots slot).connected := by
  have hfold : ∀ (slots : List Int) (n : Nat),
      slots.foldl (fun n slot => if (h.slots slot).connected then n + 1 else n) n =
        n + slots.countP fun slot => (h.slots slot).connected := by
    intro slots
    induction slots with
    | nil => exact fun _ => rfl
    | cons slot slots ih =>
      intro n
      rw [List.foldl_cons, ih, List.countP_cons]
      split <;> omega
  exact (hfold _ 0).trans (Nat.zero_add _)

theorem Sound.setSlot {h : WSHub} (hh : h.Sound) (slot : Int) {row : HubSlot}
    (hroom : row.outbox.length ≤ MAX_PENDING_BYTES) : (h.setSlot slot row).Sound := by
  refine ⟨hh.marked, fun s => ?_⟩
  rcases Decidable.em (s = slot) with rfl | hne
  · rw [slots_setSlot_self]
    exact hroom
  · rw [slots_setSlot_of_ne h hne]
    exact hh.bounded s

theorem Sound.queue {h : WSHub} (hh : h.Sound) (slot : Int) (frame : Bytes) : (h.queue slot frame).Sound := by
  unfold WSHub.queue
  dsimp only
  split
  · exact hh
  · next hroom =>
    rw [Bool.not_eq_true', Bool.not_eq_false, HubSlot.hasRoom, decide_eq_true_eq, ← List.length_append] at hroom
    have hset : (h.setSlot slot { h.slots slot with outbox := (h.slots slot).outbox ++ frame }).Sound :=
      hh.setSlot slot hroom
    split
    · exact hset
    · next hnew => exact ⟨hset.marked.add (Bool.eq_false_iff.mpr hnew), hset.bounded⟩

theorem mem_queue_of_mem (h : WSHub) (slot : Int) (frame : Bytes) {s : Int} (hs : s ∈ h.ready) :
    s ∈ (h.queue slot frame).ready := by
  unfold WSHub.queue
  dsimp only
  split
  · exact hs
  · split
    · exact hs
    · exact List.mem_append_left _ hs

/-- **A slot that gains a frame is named.** -/
theorem mem_queue {h : WSHub} (hh : h.Sound) {slot : Int} {frame : Bytes} {s : Int}
    (hmore : (h.slots s).outbox.length < ((h.queue slot frame).slots s).outbox.length) :
    s ∈ (h.queue slot frame).ready := by
  have heq : s = slot := by
    by_contra hne
    rw [slots_queue, if_neg hne] at hmore
    exact Nat.lt_irrefl _ hmore
  subst heq
  unfold WSHub.queue at hmore ⊢
  dsimp only at hmore ⊢
  split
  · next hfull =>
    rw [if_pos hfull] at hmore
    exact absurd hmore (Nat.lt_irrefl _)
  · split
    · next hnamed => exact (hh.marked.mem s).mpr hnamed
    · exact List.mem_append_right _ (List.mem_singleton_self s)

theorem mem_queueConnected_of_mem (frame : Bytes) (h : WSHub) (slot : Int) {s : Int} (hs : s ∈ h.ready) :
    s ∈ (queueConnected frame h slot).ready := by
  unfold queueConnected
  split
  · exact mem_queue_of_mem h slot frame hs
  · exact hs

/-- What every turn of `deliver_peer` keeps. -/
theorem deliverPeer_induction {P : WSHub → Prop} {h : WSHub} {frame : Bytes} (hh : P h)
    (hstep : ∀ h' slot, P h' → P (queueConnected frame h' slot)) : P (h.deliverPeer frame) := by
  have hloop : ∀ (slots : List Int) (h : WSHub), P h → P (slots.foldl (queueConnected frame) h) := by
    intro slots
    induction slots with
    | nil => exact fun _ hh => hh
    | cons slot slots ih => exact fun h hh => ih _ (hstep h slot hh)
  exact hloop _ h hh

theorem Sound.queueConnected {h : WSHub} (hh : h.Sound) (frame : Bytes) (slot : Int) :
    (queueConnected frame h slot).Sound := by
  unfold WSHub.queueConnected
  split
  · exact hh.queue slot frame
  · exact hh

theorem Sound.deliverPeer {h : WSHub} (hh : h.Sound) (frame : Bytes) : (h.deliverPeer frame).Sound :=
  deliverPeer_induction hh fun _ slot hh' => hh'.queueConnected frame slot

/-- A broadcast is a peer's frame here; the bus is not the hub's. -/
theorem broadcast_eq (h : WSHub) (url frame : Bytes) (counter : Int) :
    (h.broadcast url frame counter).1 = h.deliverPeer frame := by
  unfold broadcast
  dsimp only
  split <;> rfl

theorem Sound.call {h : WSHub} (hh : h.Sound) (c : Call) : (h.call c).Sound := by
  cases c with
  | opened slot =>
    show (h.open slot).Sound
    unfold WSHub.open
    split
    · exact hh
    · exact hh.setSlot slot (Nat.zero_le _)
  | closed slot =>
    show (h.closed slot).Sound
    unfold WSHub.closed
    split
    · exact hh
    · exact hh.setSlot slot (Nat.zero_le _)
  | send slot frame =>
    show (h.send slot frame).Sound
    unfold WSHub.send
    split
    · exact hh
    · exact hh.queue slot frame
  | broadcast url frame counter =>
    show (h.broadcast url frame counter).1.Sound
    rw [broadcast_eq]
    exact hh.deliverPeer frame
  | deliverPeer frame => exact hh.deliverPeer frame
  | drain slot =>
    show (h.drain slot).1.Sound
    unfold WSHub.drain
    split
    · exact hh
    · exact hh.setSlot slot (Nat.zero_le _)
  | takeReady => exact ⟨hh.marked.take, hh.bounded⟩

theorem sound_new (capacity : Nat) : (new capacity).Sound := ⟨Marked.nil, fun _ => Nat.zero_le _⟩

theorem mem_deliverPeer_of_mem (h : WSHub) (frame : Bytes) {s : Int} (hs : s ∈ h.ready) :
    s ∈ (h.deliverPeer frame).ready :=
  deliverPeer_induction (P := fun h => s ∈ h.ready) hs fun h' slot hs' =>
    mem_queueConnected_of_mem frame h' slot hs'

theorem mem_call_of_mem {h : WSHub} {c : Call} (hc : c ≠ .takeReady) {s : Int} (hs : s ∈ h.ready) :
    s ∈ (h.call c).ready := by
  cases c with
  | opened slot =>
    show s ∈ (h.open slot).ready
    unfold WSHub.open
    split
    · exact hs
    · exact hs
  | closed slot =>
    show s ∈ (h.closed slot).ready
    unfold WSHub.closed
    split
    · exact hs
    · exact hs
  | send slot frame =>
    show s ∈ (h.send slot frame).ready
    unfold WSHub.send
    split
    · exact hs
    · exact mem_queue_of_mem h slot frame hs
  | broadcast url frame counter =>
    show s ∈ (h.broadcast url frame counter).1.ready
    rw [broadcast_eq]
    exact mem_deliverPeer_of_mem h frame hs
  | deliverPeer frame => exact mem_deliverPeer_of_mem h frame hs
  | drain slot =>
    show s ∈ (h.drain slot).1.ready
    unfold WSHub.drain
    split
    · exact hs
    · exact hs
  | takeReady => exact absurd rfl hc

theorem mem_deliverPeer {h : WSHub} (hh : h.Sound) {frame : Bytes} {s : Int}
    (hmore : (h.slots s).outbox.length < ((h.deliverPeer frame).slots s).outbox.length) :
    s ∈ (h.deliverPeer frame).ready := by
  have hboth : (h.deliverPeer frame).Sound ∧ (s ∈ (h.deliverPeer frame).ready ∨
      ((h.deliverPeer frame).slots s).outbox.length ≤ (h.slots s).outbox.length) := by
    refine deliverPeer_induction (P := fun h' => h'.Sound ∧
      (s ∈ h'.ready ∨ (h'.slots s).outbox.length ≤ (h.slots s).outbox.length)) ⟨hh, Or.inr (Nat.le_refl _)⟩
      fun h' slot hh' => ⟨hh'.1.queueConnected frame slot, ?_⟩
    rcases hh'.2 with hnamed | hle
    · exact Or.inl (mem_queueConnected_of_mem frame h' slot hnamed)
    · unfold queueConnected
      split
      · rcases Nat.lt_or_ge (h'.slots s).outbox.length ((h'.queue slot frame).slots s).outbox.length
          with hlt | hge
        · exact Or.inl (mem_queue hh'.1 hlt)
        · exact Or.inr (hge.trans hle)
      · exact Or.inr hle
  rcases hboth.2 with hnamed | hle
  · exact hnamed
  · exact absurd hmore (Nat.not_lt.mpr hle)

/-- **A slot that gains bytes is named.** -/
theorem Call.names {h : WSHub} (hh : h.Sound) {c : Call} {s : Int} (hgains : h.Gains c s) :
    s ∈ (h.call c).ready := by
  have hmore : (h.slots s).outbox.length < ((h.call c).slots s).outbox.length := hgains
  cases c with
  | opened slot =>
    have hmore : _ < ((h.open slot).slots s).outbox.length := hmore
    rw [slots_open] at hmore
    split at hmore
    · exact absurd hmore (Nat.not_lt_zero _)
    · exact absurd hmore (Nat.lt_irrefl _)
  | closed slot =>
    have hmore : _ < ((h.closed slot).slots s).outbox.length := hmore
    rw [slots_closed] at hmore
    split at hmore
    · exact absurd hmore (Nat.not_lt_zero _)
    · exact absurd hmore (Nat.lt_irrefl _)
  | send slot frame =>
    have hmore : _ < ((h.send slot frame).slots s).outbox.length := hmore
    show s ∈ (h.send slot frame).ready
    unfold WSHub.send at hmore ⊢
    split
    · next hno =>
      rw [if_pos hno] at hmore
      exact absurd hmore (Nat.lt_irrefl _)
    · next hyes =>
      rw [if_neg hyes] at hmore
      exact mem_queue hh hmore
  | broadcast url frame counter =>
    have hmore : _ < ((h.broadcast url frame counter).1.slots s).outbox.length := hmore
    show s ∈ (h.broadcast url frame counter).1.ready
    rw [broadcast_eq] at hmore ⊢
    exact mem_deliverPeer hh hmore
  | deliverPeer frame => exact mem_deliverPeer hh hmore
  | drain slot =>
    have hmore : _ < ((h.drain slot).1.slots s).outbox.length := hmore
    rw [slots_drain] at hmore
    split at hmore
    · exact absurd hmore (Nat.not_lt_zero _)
    · exact absurd hmore (Nat.lt_irrefl _)
  | takeReady => exact absurd hmore (Nat.lt_irrefl _)

/-- A call leaves an outbox as it is, puts its frame behind it, or empties it. -/
theorem pending_call (h : WSHub) (c : Call) (s : Int) :
    ∃ frames : List Bytes, (∀ frame ∈ frames, c.frame? = some frame) ∧
      (((h.call c).slots s).outbox = (h.slots s).outbox ++ frames.flatten ∨
        ((h.call c).slots s).outbox = frames.flatten) := by
  have hempty : ∀ {x : Bytes} (b : Bool), (x = if b then [] else (h.slots s).outbox) →
      ∃ frames : List Bytes, (∀ frame ∈ frames, c.frame? = some frame) ∧
        (x = (h.slots s).outbox ++ frames.flatten ∨ x = frames.flatten) := by
    intro x b heq
    refine ⟨[], fun _ hf => (nomatch hf), ?_⟩
    cases b with
    | true => exact Or.inr heq
    | false => exact Or.inl (heq.trans (List.append_nil _).symm)
  have hqueued : ∀ frame, ∀ f ∈ h.queued s frame, some frame = some f := by
    intro frame f hf
    unfold queued at hf
    split at hf
    · exact congrArg some (List.mem_singleton.mp hf).symm
    · cases hf
  have hdoes := does s h c
  cases c with
  | opened slot =>
    refine hempty (h.inRange slot && s == slot) ?_
    show ((h.open slot).slots s).outbox = _
    rw [slots_open]
    split
    · rfl
    · rfl
  | closed slot =>
    refine hempty (h.inRange slot && s == slot) ?_
    show ((h.closed slot).slots s).outbox = _
    rw [slots_closed]
    split
    · rfl
    · rfl
  | send slot frame =>
    refine ⟨_, fun f hf => ?_, Or.inl hdoes⟩
    have hf : f ∈ if s == slot then h.queued s frame else [] := hf
    split at hf
    · exact hqueued frame f hf
    · cases hf
  | broadcast url frame counter => exact ⟨_, hqueued frame, Or.inl hdoes⟩
  | deliverPeer frame => exact ⟨_, hqueued frame, Or.inl hdoes⟩
  | drain slot =>
    refine hempty (h.inRange slot && s == slot) ?_
    show ((h.drain slot).1.slots s).outbox = _
    rw [slots_drain]
    split
    · rfl
    · rfl
  | takeReady => exact hempty false rfl

/-! ### Runs -/

/-- What a hub keeps together, in one state of a run: it names the slots that gain bytes, and counts its
connections when it is asked. -/
structure Together {capacity : Nat} (x : (system capacity).Execution) (k : ℕ) : Prop where
  count : (x.state k).count =
    (slotRange (x.state k).capacity).countP fun slot => ((x.state k).slots slot).connected
  marked : Marked (x.state k).ready (x.state k).named
  owed : ∀ s i c, i < k → x.labels[i]? = some c → (x.state i).Gains c s →
    (∀ j, i < j → j < k → x.labels[j]? ≠ some .takeReady) → s ∈ (x.state k).ready
  whole : ∀ s, ∃ frames : List Bytes, (∀ frame ∈ frames, frame ∈ (x.labels.take k).filterMap Call.frame?) ∧
    ((x.state k).slots s).outbox = frames.flatten
  bounded : ∀ s, ((x.state k).slots s).outbox.length ≤ MAX_PENDING_BYTES

def KeepsTogether {capacity : Nat} (x : (system capacity).Execution) : Prop :=
  ∀ k ≤ x.labels.length, Together x k

section

variable {capacity : Nat} {x : (system capacity).Execution} {k : ℕ}

theorem call_of_label {c : Call} (hc : x.labels[k]? = some c) : x.state (k + 1) = (x.state k).call c :=
  (Option.some.inj (x.steps hc)).symm

theorem sound_run (x : (system capacity).Execution) : ∀ k ≤ x.labels.length, (x.state k).Sound := by
  refine x.invariant (sound_new capacity) fun h c h' hh hnext => ?_
  rw [← Option.some.inj hnext]
  exact hh.call c

theorem together_run (x : (system capacity).Execution) : KeepsTogether x := by
  intro k hk
  have hsound := sound_run x
  have hnow := hsound k hk
  refine ⟨count_eq _, hnow.marked, fun s i c hik hc hgains hnone => ?_, fun s => ?_, hnow.bounded⟩
  · refine x.stays (P := fun h => s ∈ h.ready) (Nat.succ_le_of_lt hik) hk ?_ fun j c' hij hjk hc' hmem => ?_
    · rw [call_of_label hc]
      exact Call.names (hsound i (by omega)) hgains
    · rw [call_of_label hc']
      exact mem_call_of_mem (fun htake => hnone j hij hjk (by rw [hc', htake])) hmem
  · refine x.made_of (fun h => (h.slots s).outbox) Call.frame? rfl (fun h c h' hnext => ?_) hk
    rw [← Option.some.inj hnext]
    exact pending_call h c s

end

end WSHub

/-! ## Both -/

/-- **A registry and a hub keep their views together** in every state of every run. -/
theorem registries_together (capacity : Nat) (x : (SSERegistry.system capacity).Execution)
    (y : (WSHub.system capacity).Execution) : SSERegistry.KeepsTogether x ∧ WSHub.KeepsTogether y :=
  ⟨SSERegistry.together_run x, WSHub.together_run y⟩

/-- A slot that was closed since the last take is named. -/
def WSHub.NamesClosed {capacity : Nat} (y : (WSHub.system capacity).Execution) : Prop :=
  ∀ k ≤ y.labels.length, ∀ s i, i < k → y.labels[i]? = some (.closed s) → (y.state i).inRange s = true →
    (∀ j, i < j → j < k → y.labels[j]? ≠ some .takeReady) → s ∈ (y.state k).ready

/-- From one subscription to the next, what a slot has seen is not taken back. -/
def SSERegistry.NeverLower {capacity : Nat} (x : (SSERegistry.system capacity).Execution) : Prop :=
  ∀ k ≤ x.labels.length, ∀ s i, i ≤ k →
    (∀ j l, i ≤ j → j < k → x.labels[j]? = some l → l.subscribes s = false) →
    ((x.state i).slots s).lastEventId ≤ ((x.state k).slots s).lastEventId

/-- A hub does not name the slot that it closes, and an unsubscription forgets what the slot has seen. -/
theorem registries_not_alike :
    (¬ ∀ y : (WSHub.system 1).Execution, WSHub.NamesClosed y) ∧
      ¬ ∀ x : (SSERegistry.system 1).Execution, SSERegistry.NeverLower x := by
  constructor
  · intro hall
    have hnamed := hall (LabelledSystem.Execution.ofRun (WSHub.system 1) [.opened 0, .closed 0] rfl) 2
      (Nat.le_refl 2) 0 1 (by decide) rfl rfl fun j hlt hlt' => absurd hlt' (Nat.not_lt.mpr hlt)
    exact List.not_mem_nil hnamed
  · intro hall
    have hle := hall (LabelledSystem.Execution.ofRun (SSERegistry.system 1)
      [.call (.subscribe 0 [] 5), .call (.unsubscribe 0)] rfl) 2 (Nat.le_refl 2) 0 1 (by decide)
      fun j l hle hlt hl => by
        obtain rfl : j = 1 := by omega
        rw [← Option.some.inj hl]
        rfl
    exact absurd hle (by decide)

end MojoHttp
