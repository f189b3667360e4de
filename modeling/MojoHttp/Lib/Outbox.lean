import Mathlib.Data.List.Basic
import Mathlib.Data.List.Infix

/-!
# An outbox, across the calls that fill, empty and reset it

A component keeps bytes for a reader: its calls queue frames, hand out what is pending, or start the
outbox anew for another reader. Nothing here knows what the component is.

* **`Effect.Does`** — what a call says it did to the outbox is what it did.
* **`Outbox.drained_prefix`** — where every call of a run does what it says, what was handed out
  since the outbox was last started anew is a prefix of what was queued since.
-/

/-- What one call does to an outbox. -/
structure Effect (α : Type*) where
  /-- The outbox starts anew, with nothing pending. -/
  reset : Bool := false
  /-- The frames that go in, whole. -/
  queued : List (List α) := []
  drained : List α := []

namespace Effect

variable {α : Type*}

/-- The outbox held `before` and holds `after`. -/
def Does (e : Effect α) (before after : List α) : Prop :=
  e.drained ++ after = (if e.reset then [] else before) ++ e.queued.flatten

theorem does_nothing (pending : List α) : ({} : Effect α).Does pending pending := by
  simp [Does]

theorem does_reset {reset : Bool} {before after : List α}
    (h : after = if reset then [] else before) :
    ({ reset := reset } : Effect α).Does before after := by
  simp [Does, h]

theorem does_queue {queued : List (List α)} {before after : List α}
    (h : after = before ++ queued.flatten) : ({ queued := queued } : Effect α).Does before after := by
  simp [Does, h]

/-- A call that starts the outbox anew and finds it empty need not empty it. -/
theorem does_start {reset : Bool} {queued : List (List α)} {before after : List α}
    (h : after = before ++ queued.flatten) (hempty : reset = true → before = []) :
    ({ reset := reset, queued := queued } : Effect α).Does before after := by
  cases reset with
  | false => simp [Does, h]
  | true => simp [Does, h, hempty rfl]

theorem does_drain {drained : List α} {queued : List (List α)} {before after : List α}
    (h : drained ++ after = before ++ queued.flatten) :
    ({ queued := queued, drained := drained } : Effect α).Does before after := by
  simp [Does, h]

end Effect

/-- What was queued for an outbox, and handed out from it, since it was last started anew. -/
structure Since (α : Type*) where
  queued : List (List α)
  drained : List α

namespace Since

variable {α : Type*}

def step (s : Since α) (e : Effect α) : Since α :=
  if e.reset then ⟨e.queued, e.drained⟩ else ⟨s.queued ++ e.queued, s.drained ++ e.drained⟩

/-- What has been handed out and what is pending is what was queued. -/
def Accounts (s : Since α) (pending : List α) : Prop := s.drained ++ pending = s.queued.flatten

theorem Accounts.step {s : Since α} {e : Effect α} {before after : List α}
    (h : s.Accounts before) (hdoes : e.Does before after) : (s.step e).Accounts after := by
  unfold Accounts at h
  unfold Effect.Does at hdoes
  unfold Since.step
  cases hreset : e.reset with
  | true =>
    rw [hreset, if_pos rfl, List.nil_append] at hdoes
    exact hdoes
  | false =>
    rw [hreset, if_neg Bool.false_ne_true] at hdoes
    show (s.drained ++ e.drained) ++ after = (s.queued ++ e.queued).flatten
    rw [List.append_assoc, hdoes, ← List.append_assoc, h, List.flatten_append]

end Since

/-- A component with calls `C`, seen from one of its outboxes. -/
structure Outbox (S C α : Type*) where
  next : S → C → S
  pending : S → List α
  effect : S → C → Effect α

namespace Outbox

variable {S C α : Type*}

/-- The state behind a run. -/
def run (o : Outbox S C α) (s : S) (cs : List C) : S := cs.foldl o.next s

/-- What a run leaves queued and handed out since the last reset. -/
def since (o : Outbox S C α) (s : S) : List C → Since α → Since α
  | [], log => log
  | c :: cs, log => o.since (o.next s c) cs (log.step (o.effect s c))

/-- Every call of the run meets `P`, in the state it is made in. -/
def Throughout (o : Outbox S C α) (P : S → C → Prop) (s : S) : List C → Prop
  | [] => True
  | c :: cs => P s c ∧ o.Throughout P (o.next s c) cs

variable {o : Outbox S C α}

theorem accounts_run {P : S → C → Prop}
    (hdoes : ∀ s c, P s c → (o.effect s c).Does (o.pending s) (o.pending (o.next s c)))
    {s : S} {cs : List C} (h : o.Throughout P s cs) {log : Since α}
    (hlog : log.Accounts (o.pending s)) :
    (o.since s cs log).Accounts (o.pending (o.run s cs)) := by
  induction cs generalizing s log with
  | nil => exact hlog
  | cons c cs ih =>
    have ⟨hc, hcs⟩ := h
    exact ih hcs (hlog.step (hdoes s c hc))

/-- **What is handed out is what was queued since the last reset, in order**, where every call does
what it says. -/
theorem drained_prefix {P : S → C → Prop}
    (hdoes : ∀ s c, P s c → (o.effect s c).Does (o.pending s) (o.pending (o.next s c)))
    {s : S} (hs : o.pending s = []) {cs : List C} (h : o.Throughout P s cs) :
    (o.since s cs ⟨[], []⟩).drained <+: (o.since s cs ⟨[], []⟩).queued.flatten := by
  have hend := accounts_run hdoes h (show Since.Accounts ⟨[], []⟩ (o.pending s) by rw [hs]; rfl)
  exact ⟨o.pending (o.run s cs), hend⟩

end Outbox
