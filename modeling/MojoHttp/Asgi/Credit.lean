import MojoHttp.Lib.Execution
import MojoHttp.Lib.Totals

/-!
# The executor's send credit (`m0_shim.py`)

What the executor's thread keeps of the bytes it has put on the chunk channel: a window for each
slot, one that all slots share, and what each slot has in flight. A send that finds no room waits, and
may look again at any time; the loop's acknowledgements carry a slot and nothing else.

* **`Executor.Accounted.step`** — every step keeps the shared window and what is in flight at the whole.
* **`Executor.credit_conserved`** — so it is in every run, to the end of its last task; and the slots'
  windows stay above zero exactly when no send is charged past its slot's.
-/

namespace MojoHttp

def ASGI_CREDIT_WINDOW : Nat := 64 * 1024
def ASGI_TOTAL_WINDOW : Nat := 128 * 1024

namespace Executor

/-! ## The tables -/

inductive Life where
  | running
  /-- `done()`, its callback still to come. -/
  | finished
  /-- The callback has run. -/
  | settled
  deriving Repr, DecidableEq

/-- The task of a request or of a socket. -/
structure AppTask (S : Type) where
  slot : S
  /-- `_m0_disconnected`, which the loop's disconnect sets. -/
  disconnected : Bool
  life : Life
  deriving Repr, DecidableEq

/-- `_task_gone`. -/
def AppTask.gone {S : Type} (t : AppTask S) : Bool := t.disconnected || t.life != .running

/-- Which of its two loops a send waits in. -/
inductive Waits where
  | slot
  | shared
  | over
  deriving Repr, DecidableEq

/-- A piece in `_emit`, or a frame in `_ws_spend`. -/
structure Send where
  task : Nat
  nbytes : Nat
  waits : Waits
  deriving Repr, DecidableEq

end Executor

open Executor

/-- `_exec_credits`, with whose entries those of `_exec_credit_evts` come and go, and its siblings. -/
structure Executor (S : Type) where
  credits : S → Option Int
  globalCredit : Int
  inflight : S → Option Int
  /-- `_exec_slot_task`. -/
  slotTask : S → Option Nat
  tasks : List (AppTask S)
  sends : List Send

namespace Executor

variable {S : Type} [DecidableEq S]

def empty : Executor S where
  credits _ := none
  globalCredit := ASGI_TOTAL_WINDOW
  inflight _ := none
  slotTask _ := none
  tasks := []
  sends := []

/-- What the slot has in flight goes back to the shared window. -/
def refund (e : Executor S) (slot : S) : Executor S :=
  { e with
    inflight := Function.update e.inflight slot none
    globalCredit := e.globalCredit + (e.inflight slot).getD 0 }

/-- `_exec_cleanup_slot`. -/
def cleanup (e : Executor S) (slot : S) : Executor S :=
  { e.refund slot with credits := Function.update e.credits slot none }

/-- The three lines that charge; the first raises for a slot without a window. -/
def charge (e : Executor S) (slot : S) (n : Nat) : Executor S :=
  match e.credits slot with
  | none => e
  | some c =>
    { e with
      credits := Function.update e.credits slot (some (c - n))
      globalCredit := e.globalCredit - n
      inflight := Function.update e.inflight slot (some ((e.inflight slot).getD 0 + n)) }

def setSend (e : Executor S) (k : Nat) (w : Send) (waits : Waits) : Executor S :=
  { e with sends := e.sends.set k { w with waits := waits } }

/-- The second loop, and what follows it. -/
def lookShared (e : Executor S) (k : Nat) (w : Send) (t : AppTask S) : Executor S :=
  if e.globalCredit < w.nbytes then
    if t.gone then e.setSend k w .over else e.setSend k w .shared
  else if t.gone then e.setSend k w .over
  else (e.charge t.slot w.nbytes).setSend k w .over

/-- What a send does when it runs, up to its next wait. -/
def look (e : Executor S) (k : Nat) (w : Send) (t : AppTask S) : Executor S :=
  match w.waits with
  | .slot =>
    if (e.credits t.slot).getD 0 < w.nbytes then
      if t.gone then e.setSend k w .over else e.setSend k w .slot
    else e.lookShared k w t
  | .shared => e.lookShared k w t
  | .over => e

/-- `_on_ack`. -/
def ack (e : Executor S) (slot : S) (n : Nat) : Executor S :=
  let credits := match e.credits slot with
    | none => e.credits
    | some c => Function.update e.credits slot (some (min (c + n) ASGI_CREDIT_WINDOW))
  let spent := (e.inflight slot).getD 0
  let refund := min (n : Int) spent
  if refund = 0 then { e with credits := credits }
  else
    { e with
      credits := credits
      inflight := Function.update e.inflight slot (some (spent - refund))
      globalCredit := e.globalCredit + refund }

/-- `_exec_on_disconnect`. -/
def onDisconnect (e : Executor S) (slot : S) : Executor S :=
  let tasks := match e.slotTask slot with
    | none => e.tasks
    | some i => e.tasks.modify i fun t => { t with disconnected := true }
  { e.refund slot with tasks := tasks }

/-- `_on_task_done`, and `_Cycle.done` like it: the slot's state goes with the task that owns it. -/
def taskDone (e : Executor S) (i : Nat) (slot : S) : Executor S :=
  let e := { e with tasks := e.tasks.modify i fun t => { t with life := .settled } }
  if e.slotTask slot = some i then
    { e with slotTask := Function.update e.slotTask slot none }.cleanup slot
  else e

/-! ## Runs -/

inductive Label (S : Type) where
  /-- `spawn`, `spawn_ws`. -/
  | spawn (slot : S)
  /-- A stream's head goes out, or a socket's accept: its window is seeded whole. -/
  | opened (task : Nat)
  | send (task nbytes : Nat)
  | wake (send : Nat)
  | ack (slot : S) (n : Nat)
  | disconnect (slot : S)
  | finish (task : Nat)
  | done (task : Nat)
  deriving Repr, DecidableEq

def next (e : Executor S) : Label S → Option (Executor S)
  | .spawn slot =>
    some { e with
      slotTask := Function.update e.slotTask slot (some e.tasks.length)
      tasks := e.tasks ++ [⟨slot, false, .running⟩] }
  | .opened i =>
    match e.tasks[i]? with
    | none => none
    | some t =>
      -- the loop gives the slot to another request when this one has been answered, not before
      if t.life = .running ∧ e.slotTask t.slot = some i then
        some { e with credits := Function.update e.credits t.slot (some (ASGI_CREDIT_WINDOW : Int)) }
      else none
  | .send i nbytes =>
    match e.tasks[i]? with
    | none => none
    | some t =>
      -- a stream's send is dropped or raises here, a socket's goes on uncharged
      if t.gone ∨ e.credits t.slot = none then some e
      else
        let w : Send := ⟨i, min nbytes ASGI_CREDIT_WINDOW, .slot⟩
        some ({ e with sends := e.sends ++ [w] }.look e.sends.length w t)
  | .wake k =>
    match e.sends[k]? with
    | none => none
    | some w =>
      match e.tasks[w.task]? with
      | none => none
      | some t => some (e.look k w t)
  | .ack slot n => some (e.ack slot n)
  | .disconnect slot => some (e.onDisconnect slot)
  | .finish i =>
    match e.tasks[i]? with
    | none => none
    | some t =>
      if t.life = .running then
        some { e with tasks := e.tasks.modify i fun t => { t with life := .finished } }
      else none
  | .done i =>
    match e.tasks[i]? with
    | none => none
    | some t => if t.life = .finished then some (e.taskDone i t.slot) else none

def system (S : Type) [DecidableEq S] : LabelledSystem (Executor S) (Label S) := ⟨empty, next⟩

/-- A send that has waited for the shared window would be charged more than its slot has left. -/
def overdraws (e : Executor S) : Label S → Bool
  | .wake k =>
    match e.sends[k]? with
    | none => false
    | some w =>
      match e.tasks[w.task]? with
      | none => false
      | some t =>
        w.waits == .shared && !t.gone && (w.nbytes : Int) ≤ e.globalCredit &&
          (match e.credits t.slot with
          | none => false
          | some c => c < w.nbytes)
  | _ => false

/-! ## What every step keeps -/

section

variable [Fintype S]

/-- The bytes in flight on all slots. -/
def inFlight (e : Executor S) : Int := ∑ s, (e.inflight s).getD 0

structure Accounted (e : Executor S) : Prop where
  total : e.globalCredit + e.inFlight = ASGI_TOTAL_WINDOW
  flight_nonneg : ∀ s n, e.inflight s = some n → 0 ≤ n
  capped : ∀ s c, e.credits s = some c → c ≤ ASGI_CREDIT_WINDOW
  /-- A slot with a window, or with bytes in flight, is some task's. -/
  owned : ∀ s, e.slotTask s = none → e.credits s = none ∧ e.inflight s = none
  /-- A slot's task has not settled. -/
  owner : ∀ s i, e.slotTask s = some i → ∃ t, e.tasks[i]? = some t ∧ t.slot = s ∧ t.life ≠ .settled

theorem sum_inflight (f : S → Option Int) (slot : S) (v : Option Int) :
    ∑ s, (Function.update f slot v s).getD 0 = ∑ s, (f s).getD 0 - (f slot).getD 0 + v.getD 0 := by
  have hfun : (fun s => (Function.update f slot v s).getD 0) =
      Function.update (fun s => (f s).getD 0) slot (v.getD 0) := by
    funext s
    rcases eq_or_ne s slot with rfl | hne
    · rw [Function.update_self, Function.update_self]
    · rw [Function.update_of_ne hne, Function.update_of_ne hne]
  rw [hfun, Threads.sum_update_eq (Finset.mem_univ slot)]

namespace Accounted

variable {e : Executor S}

omit [DecidableEq S] in
theorem empty : Accounted (Executor.empty : Executor S) where
  total := by
    show (ASGI_TOTAL_WINDOW : Int) + ∑ s : S, (none : Option Int).getD 0 = _
    rw [Finset.sum_eq_zero fun (_ : S) _ => Option.getD_none, Int.add_zero]
  flight_nonneg _ _ hn := nomatch hn
  capped _ _ hc := nomatch hc
  owned _ _ := ⟨rfl, rfl⟩
  owner _ _ hi := nomatch hi

omit [DecidableEq S] in
theorem spent_nonneg (h : e.Accounted) (slot : S) : 0 ≤ (e.inflight slot).getD 0 := by
  cases hs : e.inflight slot with
  | none => exact Int.le_refl 0
  | some n => exact h.flight_nonneg slot n hs

omit [DecidableEq S] in
theorem setSend (h : e.Accounted) (k : Nat) (w : Send) (waits : Waits) :
    (e.setSend k w waits).Accounted := { h with }

theorem refund (h : e.Accounted) (slot : S) : (e.refund slot).Accounted where
  total := by
    have htotal := h.total
    have hsum := sum_inflight e.inflight slot none
    show e.globalCredit + (e.inflight slot).getD 0 + ∑ s, (Function.update e.inflight slot none s).getD 0 = _
    unfold inFlight at htotal
    rw [hsum, Option.getD_none]
    omega
  flight_nonneg s n hn := by
    change Function.update e.inflight slot none s = some n at hn
    rcases eq_or_ne s slot with rfl | hne
    · rw [Function.update_self] at hn
      cases hn
    · rw [Function.update_of_ne hne] at hn
      exact h.flight_nonneg s n hn
  capped := h.capped
  owned s hs := by
    have ⟨hcredits, hflight⟩ := h.owned s hs
    refine ⟨hcredits, ?_⟩
    show Function.update e.inflight slot none s = none
    rcases eq_or_ne s slot with rfl | hne
    · rw [Function.update_self]
    · rw [Function.update_of_ne hne, hflight]
  owner := h.owner

/-- A slot is refunded, and its task and its window go. -/
theorem cleanup (h : e.Accounted) (slot : S) :
    ({ e with slotTask := Function.update e.slotTask slot none }.cleanup slot).Accounted := by
  have hrefund := h.refund slot
  refine ⟨hrefund.total, hrefund.flight_nonneg, ?_, ?_, ?_⟩
  · intro s c hc
    change Function.update e.credits slot none s = some c at hc
    rcases eq_or_ne s slot with rfl | hne
    · rw [Function.update_self] at hc
      cases hc
    · rw [Function.update_of_ne hne] at hc
      exact h.capped s c hc
  · intro s hs
    change Function.update e.slotTask slot none s = none at hs
    show Function.update e.credits slot none s = none ∧ Function.update e.inflight slot none s = none
    rcases eq_or_ne s slot with rfl | hne
    · rw [Function.update_self, Function.update_self]
      exact ⟨rfl, rfl⟩
    · rw [Function.update_of_ne hne] at hs ⊢
      rw [Function.update_of_ne hne]
      exact h.owned s hs
  · intro s i hi
    change Function.update e.slotTask slot none s = some i at hi
    rcases eq_or_ne s slot with rfl | hne
    · rw [Function.update_self] at hi
      cases hi
    · rw [Function.update_of_ne hne] at hi
      exact h.owner s i hi

/-- A slot that has a window is charged to it and to the shared one. -/
theorem charge (h : e.Accounted) (slot : S) (n : Nat) : (e.charge slot n).Accounted := by
  unfold Executor.charge
  split
  · exact h
  · next c hc =>
    refine ⟨?_, ?_, ?_, ?_, h.owner⟩
    · have htotal := h.total
      have hsum := sum_inflight e.inflight slot (some ((e.inflight slot).getD 0 + n))
      show e.globalCredit - n + ∑ s, (Function.update e.inflight slot _ s).getD 0 = _
      unfold inFlight at htotal
      rw [hsum, Option.getD_some]
      omega
    · intro s m hm
      change Function.update e.inflight slot _ s = some m at hm
      rcases eq_or_ne s slot with rfl | hne
      · rw [Function.update_self] at hm
        have hspent := h.spent_nonneg s
        have hmn := Option.some.inj hm
        omega
      · rw [Function.update_of_ne hne] at hm
        exact h.flight_nonneg s m hm
    · intro s m hm
      change Function.update e.credits slot _ s = some m at hm
      rcases eq_or_ne s slot with rfl | hne
      · rw [Function.update_self] at hm
        have hcap := h.capped s c hc
        have hmn := Option.some.inj hm
        omega
      · rw [Function.update_of_ne hne] at hm
        exact h.capped s m hm
    · intro s hs
      have hnone := h.owned s hs
      have hne : s ≠ slot := fun heq => by
        rw [heq, hc] at hnone
        cases hnone.1
      show Function.update e.credits slot _ s = none ∧ Function.update e.inflight slot _ s = none
      rw [Function.update_of_ne hne, Function.update_of_ne hne]
      exact hnone

theorem lookShared (h : e.Accounted) (k : Nat) (w : Send) (t : AppTask S) :
    (e.lookShared k w t).Accounted := by
  unfold Executor.lookShared
  split
  · split
    · exact h.setSend k w .over
    · exact h.setSend k w .shared
  · split
    · exact h.setSend k w .over
    · exact (h.charge t.slot w.nbytes).setSend k w .over

theorem look (h : e.Accounted) (k : Nat) (w : Send) (t : AppTask S) : (e.look k w t).Accounted := by
  unfold Executor.look
  split
  · split
    · split
      · exact h.setSend k w .over
      · exact h.setSend k w .slot
    · exact h.lookShared k w t
  · exact h.lookShared k w t
  · exact h

/-- A window of any size within its cap, for a slot that a task owns. -/
theorem seed (h : e.Accounted) {slot : S} (howned : e.slotTask slot ≠ none) {c : Int}
    (hc : c ≤ ASGI_CREDIT_WINDOW) :
    ({ e with credits := Function.update e.credits slot (some c) } : Executor S).Accounted where
  total := h.total
  flight_nonneg := h.flight_nonneg
  capped s m hm := by
    change Function.update e.credits slot (some c) s = some m at hm
    rcases eq_or_ne s slot with rfl | hne
    · rw [Function.update_self] at hm
      rw [← Option.some.inj hm]
      exact hc
    · rw [Function.update_of_ne hne] at hm
      exact h.capped s m hm
  owned s hs := by
    have hne : s ≠ slot := fun heq => howned (heq ▸ hs)
    show Function.update e.credits slot (some c) s = none ∧ _
    rw [Function.update_of_ne hne]
    exact h.owned s hs
  owner := h.owner

/-- A refund of no more than the slot has in flight. -/
theorem unspend (h : e.Accounted) (slot : S) (refund : Int) (hpos : 0 < refund)
    (hle : refund ≤ (e.inflight slot).getD 0) :
    ({ e with
        inflight := Function.update e.inflight slot (some ((e.inflight slot).getD 0 - refund))
        globalCredit := e.globalCredit + refund } : Executor S).Accounted where
  total := by
    have htotal := h.total
    have hsum := sum_inflight e.inflight slot (some ((e.inflight slot).getD 0 - refund))
    show e.globalCredit + refund + ∑ s, (Function.update e.inflight slot _ s).getD 0 = _
    unfold inFlight at htotal
    rw [hsum, Option.getD_some]
    omega
  flight_nonneg s n hn := by
    change Function.update e.inflight slot _ s = some n at hn
    rcases eq_or_ne s slot with rfl | hne
    · rw [Function.update_self] at hn
      have hmn := Option.some.inj hn
      omega
    · rw [Function.update_of_ne hne] at hn
      exact h.flight_nonneg s n hn
  capped := h.capped
  owned s hs := by
    have hnone := h.owned s hs
    have hne : s ≠ slot := fun heq => by
      -- there is something in flight to give back
      rw [← heq, hnone.2, Option.getD_none] at hle
      omega
    show _ ∧ Function.update e.inflight slot _ s = none
    rw [Function.update_of_ne hne]
    exact hnone
  owner := h.owner

theorem ack (h : e.Accounted) (slot : S) (n : Nat) : (e.ack slot n).Accounted := by
  have hcredits : ({ e with credits := match e.credits slot with
      | none => e.credits
      | some c => Function.update e.credits slot (some (min (c + n) ASGI_CREDIT_WINDOW)) } :
        Executor S).Accounted := by
    cases hc : e.credits slot with
    | none => exact h
    | some c =>
      refine h.seed (fun hnone => ?_) (Int.min_le_right ..)
      rw [(h.owned slot hnone).1] at hc
      cases hc
  unfold Executor.ack
  dsimp only
  split
  · exact hcredits
  · next hne =>
    have hspent := h.spent_nonneg slot
    exact hcredits.unspend slot (min n ((e.inflight slot).getD 0)) (by omega) (Int.min_le_right ..)

omit [DecidableEq S] in
/-- Tasks that keep their slots, and do not settle. -/
theorem retasked (h : e.Accounted) {tasks : List (AppTask S)}
    (hkeep : ∀ (i : Nat) (t : AppTask S), e.tasks[i]? = some t → t.life ≠ .settled →
      ∃ t' : AppTask S, tasks[i]? = some t' ∧ t'.slot = t.slot ∧ t'.life ≠ .settled) :
    ({ e with tasks := tasks } : Executor S).Accounted :=
  { h with
    owner := fun s i hi => by
      have ⟨t, ht, hslot, hlife⟩ := h.owner s i hi
      have ⟨t', ht', hslot', hlife'⟩ := hkeep i t ht hlife
      exact ⟨t', ht', hslot'.trans hslot, hlife'⟩ }

omit [DecidableEq S] in
theorem modify (h : e.Accounted) (i : Nat) {f : AppTask S → AppTask S}
    (hslot : ∀ t, (f t).slot = t.slot) (hlife : ∀ t, t.life ≠ .settled → (f t).life ≠ .settled) :
    ({ e with tasks := e.tasks.modify i f } : Executor S).Accounted := by
  refine h.retasked fun j t ht hnot => ?_
  rw [List.getElem?_modify, ht]
  split
  · exact ⟨f t, rfl, hslot t, hlife t hnot⟩
  · exact ⟨t, rfl, rfl, hnot⟩

theorem onDisconnect (h : e.Accounted) (slot : S) : (e.onDisconnect slot).Accounted := by
  unfold Executor.onDisconnect
  dsimp only
  cases e.slotTask slot with
  | none => exact (h.refund slot).retasked fun i t ht hnot => ⟨t, ht, rfl, hnot⟩
  | some i => exact (h.refund slot).modify i (fun _ => rfl) fun _ hnot => hnot

theorem taskDone (h : e.Accounted) {i : Nat} {t : AppTask S} (ht : e.tasks[i]? = some t) :
    (e.taskDone i t.slot).Accounted := by
  unfold Executor.taskDone
  dsimp only
  -- another task's record stays, and its task with it
  have hother : ∀ s j, e.slotTask s = some j → j ≠ i →
      ∃ t', (e.tasks.modify i fun t => { t with life := .settled })[j]? = some t' ∧ t'.slot = s ∧
        t'.life ≠ .settled := by
    intro s j hj hne
    rw [List.getElem?_modify_ne _ _ hne.symm]
    exact h.owner s j hj
  split
  · next hown =>
    have hclean := h.cleanup t.slot
    refine { hclean with owner := fun s j hj => ?_ }
    change Function.update e.slotTask t.slot none s = some j at hj
    rcases eq_or_ne s t.slot with rfl | hne
    · rw [Function.update_self] at hj
      cases hj
    · rw [Function.update_of_ne hne] at hj
      refine hother s j hj fun heq => hne ?_
      -- the task's own slot is the one it is on record for
      have ⟨t', ht', hslot', _⟩ := h.owner s j hj
      rw [heq, ht] at ht'
      rw [← hslot', ← Option.some.inj ht']
  · next hnot =>
    refine { h with owner := fun s j hj => hother s j hj fun heq => hnot ?_ }
    have ⟨t', ht', hslot', _⟩ := h.owner s j hj
    rw [heq, ht] at ht'
    rw [Option.some.inj ht', hslot', hj, heq]

theorem spawn (h : e.Accounted) (slot : S) :
    ({ e with
        slotTask := Function.update e.slotTask slot (some e.tasks.length)
        tasks := e.tasks ++ [⟨slot, false, .running⟩] } : Executor S).Accounted := by
  refine { h with owned := fun s hs => ?_, owner := fun s i hi => ?_ }
  · change Function.update e.slotTask slot _ s = none at hs
    rcases eq_or_ne s slot with rfl | hne
    · rw [Function.update_self] at hs
      cases hs
    · rw [Function.update_of_ne hne] at hs
      exact h.owned s hs
  · change Function.update e.slotTask slot _ s = some i at hi
    show ∃ t, (e.tasks ++ _)[i]? = some t ∧ _
    rcases eq_or_ne s slot with rfl | hne
    · rw [Function.update_self] at hi
      rw [← Option.some.inj hi, List.getElem?_concat_length]
      exact ⟨_, rfl, rfl, Life.noConfusion⟩
    · rw [Function.update_of_ne hne] at hi
      have ⟨t, ht, hrest⟩ := h.owner s i hi
      exact ⟨t, by rw [List.getElem?_append_left (List.getElem?_eq_some_iff.mp ht).1, ht], hrest⟩

/-- **Every step keeps the account.** -/
theorem step {e' : Executor S} {l : Label S} (h : e.Accounted) (hnext : e.next l = some e') :
    e'.Accounted := by
  cases l with
  | spawn slot =>
    rw [← Option.some.inj hnext]
    exact h.spawn slot
  | ack slot n =>
    rw [← Option.some.inj hnext]
    exact h.ack slot n
  | disconnect slot =>
    rw [← Option.some.inj hnext]
    exact h.onDisconnect slot
  | opened i =>
    simp only [next] at hnext
    cases ht : e.tasks[i]? with
    | none => rw [ht] at hnext; cases hnext
    | some t =>
      rw [ht] at hnext
      dsimp only at hnext
      split at hnext
      · next hopen =>
        rw [← Option.some.inj hnext]
        exact h.seed (by rw [hopen.2]; exact Option.some_ne_none i) (Int.le_refl _)
      · cases hnext
  | send i nbytes =>
    simp only [next] at hnext
    cases ht : e.tasks[i]? with
    | none => rw [ht] at hnext; cases hnext
    | some t =>
      rw [ht] at hnext
      dsimp only at hnext
      split at hnext
      · rw [← Option.some.inj hnext]
        exact h
      · rw [← Option.some.inj hnext]
        have hmore : ({ e with sends := e.sends ++ [⟨i, min nbytes ASGI_CREDIT_WINDOW, .slot⟩] } :
          Executor S).Accounted := { h with }
        exact hmore.look _ _ t
  | wake k =>
    simp only [next] at hnext
    cases hw : e.sends[k]? with
    | none => rw [hw] at hnext; cases hnext
    | some w =>
      rw [hw] at hnext
      dsimp only at hnext
      cases ht : e.tasks[w.task]? with
      | none => rw [ht] at hnext; cases hnext
      | some t =>
        rw [ht] at hnext
        rw [← Option.some.inj hnext]
        exact h.look k w t
  | finish i =>
    simp only [next] at hnext
    cases ht : e.tasks[i]? with
    | none => rw [ht] at hnext; cases hnext
    | some t =>
      rw [ht] at hnext
      dsimp only at hnext
      split at hnext
      · rw [← Option.some.inj hnext]
        exact h.modify i (fun _ => rfl) fun _ _ => Life.noConfusion
      · cases hnext
  | done i =>
    simp only [next] at hnext
    cases ht : e.tasks[i]? with
    | none => rw [ht] at hnext; cases hnext
    | some t =>
      rw [ht] at hnext
      dsimp only at hnext
      split at hnext
      · rw [← Option.some.inj hnext]
        exact h.taskDone ht
      · cases hnext

omit [DecidableEq S] in
/-- With every task settled nothing is in flight, and the shared window is whole. -/
theorem whole (h : e.Accounted) (hall : ∀ t ∈ e.tasks, t.life = .settled) :
    (∀ s, e.inflight s = none) ∧ e.globalCredit = ASGI_TOTAL_WINDOW := by
  have hnone : ∀ s, e.inflight s = none := by
    intro s
    cases hs : e.slotTask s with
    | none => exact (h.owned s hs).2
    | some i =>
      have ⟨t, ht, _, hlife⟩ := h.owner s i hs
      exact absurd (hall t (List.mem_of_getElem? ht)) hlife
  refine ⟨hnone, ?_⟩
  have htotal := h.total
  have hsum : e.inFlight = 0 := Finset.sum_eq_zero fun s _ => by rw [hnone s]; rfl
  omega

end Accounted

end

/-! ## The slots' windows -/

/-- No slot's window is below zero. -/
def Solvent (e : Executor S) : Prop := ∀ s c, e.credits s = some c → 0 ≤ c

section

variable {e : Executor S}

theorem Solvent.update (h : e.Solvent) {slot : S} {c : Int} (hc : 0 ≤ c) (s : S) (m : Int)
    (hm : Function.update e.credits slot (some c) s = some m) : 0 ≤ m := by
  rcases eq_or_ne s slot with rfl | hne
  · rw [Function.update_self] at hm
    rwa [← Option.some.inj hm]
  · rw [Function.update_of_ne hne] at hm
    exact h s m hm

/-- A window goes, or none does. -/
theorem Solvent.remove (h : e.Solvent) (slot s : S) (m : Int)
    (hm : Function.update e.credits slot none s = some m) : 0 ≤ m := by
  rcases eq_or_ne s slot with rfl | hne
  · rw [Function.update_self] at hm
    cases hm
  · rw [Function.update_of_ne hne] at hm
    exact h s m hm

theorem Solvent.charge (h : e.Solvent) {slot : S} {n : Nat}
    (hroom : ∀ c, e.credits slot = some c → n ≤ c) : (e.charge slot n).Solvent := by
  unfold Executor.charge
  split
  · exact h
  · next c hc =>
    have hle := hroom c hc
    exact fun s m hm => h.update (by omega) s m hm

/-- The second loop charges a window that has room. -/
theorem Solvent.lookShared (h : e.Solvent) (k : Nat) {w : Send} {t : AppTask S}
    (hroom : w.nbytes ≤ e.globalCredit → t.gone = false → ∀ c, e.credits t.slot = some c →
      w.nbytes ≤ c) : (e.lookShared k w t).Solvent := by
  unfold Executor.lookShared
  split
  · split
    · exact h
    · exact h
  · next hshared =>
    split
    · exact h
    · next hlive =>
      exact h.charge (hroom (Int.not_lt.mp hshared) (Bool.eq_false_iff.mpr hlive))

theorem Solvent.look (h : e.Solvent) (k : Nat) {w : Send} {t : AppTask S}
    (hroom : w.waits = .shared → w.nbytes ≤ e.globalCredit → t.gone = false →
      ∀ c, e.credits t.slot = some c → w.nbytes ≤ c) : (e.look k w t).Solvent := by
  unfold Executor.look
  split
  · split
    · split
      · exact h
      · exact h
    · next hslot =>
      -- the slot's window was looked at just now
      refine h.lookShared k fun _ _ c hc => ?_
      rw [hc, Option.getD_some] at hslot
      exact Int.not_lt.mp hslot
  · next hwaits => exact h.lookShared k (hroom hwaits)
  · exact h

theorem Solvent.ack (h : e.Solvent) (slot : S) (n : Nat) : (e.ack slot n).Solvent := by
  have hcredits : ∀ s m, (match e.credits slot with
      | none => e.credits
      | some c => Function.update e.credits slot (some (min (c + n) ASGI_CREDIT_WINDOW))) s = some m →
      0 ≤ m := by
    cases hc : e.credits slot with
    | none => exact h
    | some c =>
      have hpos := h slot c hc
      exact h.update (Int.le_min.mpr ⟨by omega, Int.natCast_nonneg _⟩)
  unfold Executor.ack
  dsimp only
  split
  · exact hcredits
  · exact hcredits

/-- **A step keeps the windows above zero, unless it charges one past what it has.** -/
theorem Solvent.step {e' : Executor S} {l : Label S} (h : e.Solvent) (hnot : e.overdraws l = false)
    (hnext : e.next l = some e') : e'.Solvent := by
  cases l with
  | spawn slot =>
    rw [← Option.some.inj hnext]
    exact h
  | ack slot n =>
    rw [← Option.some.inj hnext]
    exact h.ack slot n
  | disconnect slot =>
    rw [← Option.some.inj hnext]
    exact h
  | opened i =>
    simp only [next] at hnext
    split at hnext
    · cases hnext
    · split at hnext
      · rw [← Option.some.inj hnext]
        exact h.update (Int.natCast_nonneg _)
      · cases hnext
  | send i nbytes =>
    simp only [next] at hnext
    split at hnext
    · cases hnext
    · next t _ =>
      split at hnext
      · rw [← Option.some.inj hnext]
        exact h
      · rw [← Option.some.inj hnext]
        exact Solvent.look (e := { e with sends := e.sends ++ _ }) h _ fun hwaits => nomatch hwaits
  | wake k =>
    simp only [next] at hnext
    cases hw : e.sends[k]? with
    | none => rw [hw] at hnext; cases hnext
    | some w =>
      rw [hw] at hnext
      dsimp only at hnext
      cases ht : e.tasks[w.task]? with
      | none => rw [ht] at hnext; cases hnext
      | some t =>
        rw [ht] at hnext
        rw [← Option.some.inj hnext]
        refine h.look k fun hwaits hshared hlive c hc => ?_
        have hno : decide (c < w.nbytes) = false := by
          simpa [overdraws, hw, ht, hwaits, hlive, hshared, hc] using hnot
        exact Int.not_lt.mp (of_decide_eq_false hno)
  | finish i =>
    simp only [next] at hnext
    split at hnext
    · cases hnext
    · split at hnext
      · rw [← Option.some.inj hnext]
        exact h
      · cases hnext
  | done i =>
    simp only [next] at hnext
    split at hnext
    · cases hnext
    · next t _ =>
      split at hnext
      · rw [← Option.some.inj hnext]
        unfold Executor.taskDone
        dsimp only
        split
        · exact h.remove t.slot
        · exact h
      · cases hnext

/-- **One that does leaves it below zero.** -/
theorem not_solvent_of_overdraws {e' : Executor S} {l : Label S} (hover : e.overdraws l = true)
    (hnext : e.next l = some e') : ¬ e'.Solvent := by
  cases l with
  | wake k =>
    simp only [next] at hnext
    cases hw : e.sends[k]? with
    | none => rw [hw] at hnext; cases hnext
    | some w =>
      rw [hw] at hnext
      dsimp only at hnext
      cases ht : e.tasks[w.task]? with
      | none => rw [ht] at hnext; cases hnext
      | some t =>
        rw [ht] at hnext
        simp only [overdraws, hw, ht, Bool.and_eq_true, beq_iff_eq, Bool.not_eq_true',
          decide_eq_true_eq] at hover
        have ⟨⟨⟨hwaits, hlive⟩, hshared⟩, hcredit⟩ := hover
        cases hc : e.credits t.slot with
        | none =>
          rw [hc] at hcredit
          cases hcredit
        | some c =>
          rw [hc] at hcredit
          have hlt : c < w.nbytes := of_decide_eq_true hcredit
          -- the charge is made, and takes the window below zero
          have hlook : e.look k w t = (e.charge t.slot w.nbytes).setSend k w .over := by
            unfold Executor.look Executor.lookShared
            rw [hwaits]
            dsimp only
            rw [if_neg (Int.not_lt.mpr hshared), hlive, if_neg Bool.false_ne_true]
          have hcharged : (e.charge t.slot w.nbytes).credits t.slot = some (c - w.nbytes) := by
            unfold Executor.charge
            rw [hc]
            exact Function.update_self ..
          rw [← Option.some.inj hnext, hlook]
          intro hsolvent
          have hpos := hsolvent t.slot _ hcharged
          omega
  | _ => cases hover

end

/-! ## A run -/

section

variable [Fintype S]

/-- What the thread's books are to say at every instant. -/
structure Conserved (e : Executor S) : Prop where
  total : e.globalCredit + ∑ s, (e.inflight s).getD 0 = ASGI_TOTAL_WINDOW
  flight_nonneg : ∀ s n, e.inflight s = some n → 0 ≤ n
  capped : ∀ s c, e.credits s = some c → c ≤ ASGI_CREDIT_WINDOW
  whole : (∀ t ∈ e.tasks, t.life = .settled) →
    (∀ s, e.inflight s = none) ∧ e.globalCredit = ASGI_TOTAL_WINDOW

/-- **The credit is conserved in every run, and no slot's window falls below zero in exactly those in
which no send is charged past its own.** -/
theorem credit_conserved (x : (system S).Execution) :
    (∀ k ≤ x.labels.length, (x.state k).Conserved) ∧
      ((∀ k ≤ x.labels.length, (x.state k).Solvent) ↔
        ∀ k l, x.labels[k]? = some l → (x.state k).overdraws l = false) := by
  have hacc := x.invariant (I := Accounted) Accounted.empty fun _ _ _ h hnext => h.step hnext
  refine ⟨fun k hk => ?_, ?_, ?_⟩
  · have h := hacc k hk
    exact ⟨h.total, h.flight_nonneg, h.capped, h.whole⟩
  · -- the state behind a step that overdraws is not solvent
    intro hall k l hl
    apply Bool.eq_false_iff.mpr
    intro hover
    exact not_solvent_of_overdraws hover (x.steps hl) (hall (k + 1) (x.lt_length hl))
  · intro hno k hk
    refine LabelledSystem.Execution.stays (P := Solvent) (Nat.zero_le k) hk ?_ ?_
    · rw [x.start]
      exact fun _ _ hc => nomatch hc
    · exact fun j l _ _ hl h => h.step (hno j l hl) (x.steps hl)

end

/-- Two sockets fill the shared window; two sends of a third wait for it, each with room in its slot's. -/
def overdraft : List (Label (Fin 3)) :=
  [.spawn 0, .spawn 1, .spawn 2, .opened 0, .opened 1, .opened 2, .send 1 65536, .send 2 65536,
    .send 0 40000, .send 0 40000, .ack 1 65536, .ack 2 65536, .wake 2, .wake 3]

theorem overdraft_runs : ((system (Fin 3)).run empty overdraft).isSome = true := by decide

theorem not_solvent : ¬ ∀ x : (system (Fin 3)).Execution, ∀ k ≤ x.labels.length,
    (x.state k).Solvent := by
  intro h
  have hend := h (.ofRun (system (Fin 3)) overdraft overdraft_runs) overdraft.length (Nat.le_refl _)
    0 (-14464) (by decide)
  exact absurd hend (by decide)

end Executor

end MojoHttp
