import Mathlib.Data.List.Nodup
import Mathlib.Logic.Function.Basic

/-!
# Queues linked through their elements

A family of queues over one pair of links for each element: every element is in at most one queue,
so one `prev` and one `next` serve them all. Taking an element out and putting one at a back touch
its neighbours and the ends of its queue only.

* **`Chain`** — one direction of the links, as they run along a list.
* **`Links.Holds`** — the links are those of a family of disjoint lists.
* **`Links.Holds.remove`** — taking an element out erases it.
* **`Links.Holds.pushBack`** — putting it at a back appends it.
* **`Links.Holds.next_iff_prev`** — the two directions are inverse.
-/

namespace LinkedQueues

variable {α κ : Type*}

/-! ## One direction -/

/-- `next` leads from each element of the list to the one behind it, and nowhere from the last. -/
def Chain (next : α → Option α) : List α → Prop
  | [] => True
  | s :: rest => next s = rest.head? ∧ Chain next rest

variable {next next' : α → Option α} {a b l : List α} {s : α}

theorem Chain.congr (h : Chain next l) (heq : ∀ t ∈ l, next' t = next t) : Chain next' l := by
  induction l with
  | nil => trivial
  | cons x rest ih =>
    exact ⟨(heq x List.mem_cons_self).trans h.1, ih h.2 fun t ht => heq t (List.mem_cons_of_mem x ht)⟩

theorem Chain.eq_head? (h : Chain next (a ++ s :: b)) : next s = b.head? := by
  induction a with
  | nil => exact h.1
  | cons x a ih => exact ih h.2

/-- **An element taken out of a chain**: the one before it leads to the one behind it. -/
theorem Chain.remove (h : Chain next (a ++ s :: b)) (hnodup : (a ++ s :: b).Nodup)
    (hlast : ∀ t ∈ a ++ b, some t = a.getLast? → next' t = b.head?)
    (hrest : ∀ t ∈ a ++ b, some t ≠ a.getLast? → next' t = next t) : Chain next' (a ++ b) := by
  induction a with
  | nil =>
    refine Chain.congr h.2 fun t ht => hrest t ht ?_
    simp
  | cons x a ih =>
    rw [List.cons_append, List.nodup_cons] at hnodup
    obtain ⟨hx, hnodup⟩ := hnodup
    cases a with
    | nil =>
      refine ⟨hlast x List.mem_cons_self rfl, Chain.congr h.2.2 fun t ht => ?_⟩
      refine hrest t (List.mem_cons_of_mem x ht) fun heq => ?_
      have htx : t = x := Option.some.inj heq
      exact hx (htx ▸ List.mem_cons_of_mem s ht)
    | cons y a =>
      refine ⟨?_, ih h.2 hnodup (fun t ht => ?_) fun t ht => ?_⟩
      · rw [hrest x List.mem_cons_self, h.1]
        · rfl
        · intro heq
          refine hx (List.mem_append_left _ (List.mem_of_getLast? ?_))
          rw [← List.getLast?_cons_cons (a := x), ← heq]
      · rw [← List.getLast?_cons_cons (a := x)]
        exact hlast t (List.mem_cons_of_mem x ht)
      · rw [← List.getLast?_cons_cons (a := x)]
        exact hrest t (List.mem_cons_of_mem x ht)

/-- **An element put behind a chain.** -/
theorem Chain.concat (h : Chain next l) (hnodup : l.Nodup) (hs : next' s = none)
    (hlast : ∀ t ∈ l, some t = l.getLast? → next' t = some s)
    (hrest : ∀ t ∈ l, some t ≠ l.getLast? → next' t = next t) : Chain next' (l ++ [s]) := by
  induction l with
  | nil => exact ⟨hs, trivial⟩
  | cons x l ih =>
    rw [List.nodup_cons] at hnodup
    obtain ⟨hx, hnodup⟩ := hnodup
    cases l with
    | nil => exact ⟨hlast x List.mem_cons_self rfl, hs, trivial⟩
    | cons y l =>
      refine ⟨?_, ih h.2 hnodup (fun t ht => ?_) fun t ht => ?_⟩
      · rw [hrest x List.mem_cons_self, h.1]
        · rfl
        · intro heq
          refine hx (List.mem_of_getLast? ?_)
          rw [← List.getLast?_cons_cons (a := x), ← heq]
      · rw [← List.getLast?_cons_cons (a := x)]
        exact hlast t (List.mem_cons_of_mem x ht)
      · rw [← List.getLast?_cons_cons (a := x)]
        exact hrest t (List.mem_cons_of_mem x ht)

/-- An element put in front of a chain. -/
theorem Chain.cons (h : Chain next l) (hs : next' s = l.head?) (hrest : ∀ t ∈ l, next' t = next t) :
    Chain next' (s :: l) := ⟨hs, h.congr hrest⟩

/-! ## The links -/

structure Links (α κ : Type*) where
  prev : α → Option α
  next : α → Option α
  /-- The queue an element is in. -/
  owner : α → Option κ
  head : κ → Option α
  tail : κ → Option α

/-- Nothing is in a queue. -/
def Links.empty : Links α κ := ⟨fun _ => none, fun _ => none, fun _ => none, fun _ => none, fun _ => none⟩

variable [DecidableEq α] [DecidableEq κ]

/-- The links `f`, but the element `source`, if there is one, leads to `target`. -/
def redirect (f : α → Option α) (source target : Option α) : α → Option α :=
  source.elim f fun t => Function.update f t target

theorem redirect_apply (f : α → Option α) (source target : Option α) (t : α) :
    redirect f source target t = if some t = source then target else f t := by
  cases source with
  | none => simp [redirect]
  | some u => simp [redirect, Function.update_apply]

/-- An element taken out of its queue: its neighbours are linked to one another. -/
def Links.remove (L : Links α κ) (s : α) : Links α κ :=
  match L.owner s with
  | none => L
  | some k =>
    { prev := Function.update (redirect L.prev (L.next s) (L.prev s)) s none
      next := Function.update (redirect L.next (L.prev s) (L.next s)) s none
      owner := Function.update L.owner s none
      head := if L.prev s = none then Function.update L.head k (L.next s) else L.head
      tail := if L.next s = none then Function.update L.tail k (L.prev s) else L.tail }

/-- An element in no queue put at the back of one. -/
def Links.append (L : Links α κ) (k : κ) (s : α) : Links α κ where
  prev := Function.update L.prev s (L.tail k)
  next := redirect (Function.update L.next s none) (L.tail k) (some s)
  owner := Function.update L.owner s (some k)
  head := if L.tail k = none then Function.update L.head k (some s) else L.head
  tail := Function.update L.tail k (some s)

def Links.pushBack (L : Links α κ) (k : κ) (s : α) : Links α κ := (L.remove s).append k s

/-- The links are those of a family of lists, no two of which share an element. -/
structure Links.Holds (L : Links α κ) (lists : κ → List α) : Prop where
  nodup : ∀ k, (lists k).Nodup
  owner_iff : ∀ s k, L.owner s = some k ↔ s ∈ lists k
  head_eq : ∀ k, L.head k = (lists k).head?
  tail_eq : ∀ k, L.tail k = (lists k).getLast?
  next_chain : ∀ k, Chain L.next (lists k)
  prev_chain : ∀ k, Chain L.prev (lists k).reverse
  alone : ∀ s, L.owner s = none → L.prev s = none ∧ L.next s = none

omit [DecidableEq α] [DecidableEq κ] in
theorem Links.holds_empty : (Links.empty : Links α κ).Holds fun _ => [] :=
  ⟨fun _ => List.nodup_nil, fun s k => by simp [Links.empty], fun _ => rfl, fun _ => rfl,
    fun _ => trivial, fun _ => trivial, fun _ _ => ⟨rfl, rfl⟩⟩

section Holds

variable {L : Links α κ} {lists : κ → List α} {k : κ}

omit [DecidableEq α] [DecidableEq κ] in
/-- An element's links are its neighbours in its queue. -/
theorem Links.Holds.neighbours (h : L.Holds lists) (hl : lists k = a ++ s :: b) :
    L.next s = b.head? ∧ L.prev s = a.getLast? := by
  have hnext := h.next_chain k
  have hprev := h.prev_chain k
  rw [hl] at hnext hprev
  rw [show (a ++ s :: b).reverse = b.reverse ++ s :: a.reverse by simp] at hprev
  exact ⟨hnext.eq_head?, by rw [hprev.eq_head?, List.head?_reverse]⟩

omit [DecidableEq α] [DecidableEq κ] in
/-- The neighbours of an element are in its queue. -/
theorem Links.Holds.mem_of_link {t : α} (h : L.Holds lists) (hs : s ∈ lists k)
    (ht : some t = L.prev s ∨ some t = L.next s) : t ∈ lists k := by
  obtain ⟨a, b, hl⟩ := List.append_of_mem hs
  obtain ⟨hnext, hprev⟩ := h.neighbours hl
  rw [hl]
  rcases ht with ht | ht
  · exact List.mem_append_left _ (List.mem_of_getLast? (hprev ▸ ht).symm)
  · exact List.mem_append_right _ (List.mem_cons_of_mem s (List.mem_of_head? (hnext ▸ ht).symm))

omit [DecidableEq α] [DecidableEq κ] in
theorem Links.Holds.not_mem_of_mem {k' : κ} (h : L.Holds lists) (hs : s ∈ lists k) (hne : k' ≠ k) :
    s ∉ lists k' := by
  intro hs'
  rw [← h.owner_iff] at hs hs'
  rw [hs] at hs'
  exact hne (Option.some.inj hs').symm

/-- **Taking an element out erases it** from its queue and changes no other. -/
theorem Links.Holds.remove (h : L.Holds lists) (s : α) :
    (L.remove s).Holds fun k => (lists k).erase s := by
  unfold Links.remove
  cases howner : L.owner s with
  | none =>
    have hnone : (fun k => (lists k).erase s) = lists := by
      funext k
      refine List.erase_of_not_mem fun hs => ?_
      rw [← h.owner_iff, howner] at hs
      cases hs
    rw [hnone]
    exact h
  | some k =>
    have hmem : s ∈ lists k := (h.owner_iff s k).mp howner
    obtain ⟨a, b, hl⟩ := List.append_of_mem hmem
    obtain ⟨hnext, hprev⟩ := h.neighbours hl
    have hnodup := h.nodup k
    rw [hl] at hnodup
    have hsa : s ∉ a := fun hs => (List.disjoint_of_nodup_append hnodup) hs List.mem_cons_self
    have hsb : s ∉ b := (List.nodup_cons.mp (List.nodup_append.mp hnodup).2.1).1
    have herase : (lists k).erase s = a ++ b := by
      rw [hl, List.erase_append_right _ hsa, List.erase_cons_head]
    have hother : ∀ k' ≠ k, (lists k').erase s = lists k' := fun k' hne =>
      List.erase_of_not_mem (h.not_mem_of_mem hmem hne)
    -- a neighbour of `s` is in its queue, and in no other
    have hfar : ∀ k' ≠ k, ∀ t ∈ lists k', t ≠ s ∧ some t ≠ L.prev s ∧ some t ≠ L.next s := by
      intro k' hne t ht
      refine ⟨fun heq => h.not_mem_of_mem hmem hne (heq ▸ ht), fun heq => ?_, fun heq => ?_⟩
      · exact h.not_mem_of_mem (h.mem_of_link hmem (.inl heq)) hne ht
      · exact h.not_mem_of_mem (h.mem_of_link hmem (.inr heq)) hne ht
    have hne_of_mem : ∀ t ∈ a ++ b, t ≠ s := by
      rintro t ht rfl
      exact (List.mem_append.mp ht).elim hsa hsb
    refine ⟨fun k' => (h.nodup k').erase s, fun t k' => ?_, fun k' => ?_, fun k' => ?_, fun k' => ?_,
      fun k' => ?_, fun t ht => ?_⟩
    · by_cases hts : t = s
      · subst hts
        simp [(h.nodup k').not_mem_erase]
      · dsimp only
        rw [Function.update_of_ne hts, h.owner_iff, List.mem_erase_of_ne hts]
    · by_cases hk : k' = k
      · subst hk
        dsimp only
        rw [herase, hprev]
        cases a with
        | nil => simp [hnext]
        | cons x a => simp [h.head_eq, hl]
      · dsimp only
        rw [hother k' hk]
        split
        · rw [Function.update_of_ne hk, h.head_eq]
        · exact h.head_eq k'
    · by_cases hk : k' = k
      · subst hk
        dsimp only
        rw [herase, hnext]
        cases b with
        | nil => simp [hprev]
        | cons x b => simp [h.tail_eq, hl, List.getLast?_append]
      · dsimp only
        rw [hother k' hk]
        split
        · rw [Function.update_of_ne hk, h.tail_eq]
        · exact h.tail_eq k'
    · by_cases hk : k' = k
      · subst hk
        have hchain := h.next_chain k'
        rw [hl] at hchain
        dsimp only
        rw [herase]
        refine hchain.remove hnodup (fun t ht hlast => ?_) fun t ht hlast => ?_
        · rw [Function.update_of_ne (hne_of_mem t ht), redirect_apply, hprev, if_pos hlast, hnext]
        · rw [Function.update_of_ne (hne_of_mem t ht), redirect_apply, hprev, if_neg hlast]
      · dsimp only
        rw [hother k' hk]
        refine (h.next_chain k').congr fun t ht => ?_
        obtain ⟨hts, htp, -⟩ := hfar k' hk t ht
        rw [Function.update_of_ne hts, redirect_apply, if_neg htp]
    · by_cases hk : k' = k
      · subst hk
        have hchain := h.prev_chain k'
        have hreverse : (a ++ s :: b).reverse = b.reverse ++ s :: a.reverse := by simp
        rw [hl, hreverse] at hchain
        dsimp only
        rw [herase, List.reverse_append]
        refine hchain.remove (hreverse ▸ List.nodup_reverse.mpr hnodup) (fun t ht hlast => ?_)
          fun t ht hlast => ?_
        all_goals
          have htm : t ∈ a ++ b := by rw [← List.mem_reverse, List.reverse_append]; exact ht
          rw [List.getLast?_reverse] at hlast
        · rw [Function.update_of_ne (hne_of_mem t htm), redirect_apply, hnext, if_pos hlast, hprev,
            List.head?_reverse]
        · rw [Function.update_of_ne (hne_of_mem t htm), redirect_apply, hnext, if_neg hlast]
      · dsimp only
        rw [hother k' hk]
        refine (h.prev_chain k').congr fun t ht => ?_
        obtain ⟨hts, -, htn⟩ := hfar k' hk t (List.mem_reverse.mp ht)
        rw [Function.update_of_ne hts, redirect_apply, if_neg htn]
    · by_cases hts : t = s
      · subst hts
        exact ⟨Function.update_self .., Function.update_self ..⟩
      · dsimp only at ht
        rw [Function.update_of_ne hts] at ht
        obtain ⟨htp, htn⟩ := h.alone t ht
        have hfree : t ∉ lists k := by
          rw [← h.owner_iff, ht]
          exact Option.some_ne_none k ∘ Eq.symm
        have hnp : some t ≠ L.prev s := fun heq => hfree (h.mem_of_link hmem (.inl heq))
        have hnn : some t ≠ L.next s := fun heq => hfree (h.mem_of_link hmem (.inr heq))
        dsimp only
        rw [Function.update_of_ne hts, Function.update_of_ne hts, redirect_apply, redirect_apply,
          if_neg hnp, if_neg hnn]
        exact ⟨htp, htn⟩

/-- An element in no queue put at a back is appended there. -/
theorem Links.Holds.append (h : L.Holds lists) (k : κ) (hs : L.owner s = none) :
    (L.append k s).Holds fun k' => if k' = k then lists k' ++ [s] else lists k' := by
  have hfree : ∀ k', s ∉ lists k' := by
    intro k' hmem
    rw [← h.owner_iff, hs] at hmem
    cases hmem
  have hne_of_mem : ∀ k', ∀ t ∈ lists k', t ≠ s := fun k' t ht heq => hfree k' (heq ▸ ht)
  have htail_mem : ∀ t, some t = L.tail k → t ∈ lists k := by
    intro t ht
    rw [h.tail_eq] at ht
    exact List.mem_of_getLast? ht.symm
  unfold Links.append
  refine ⟨fun k' => ?_, fun t k' => ?_, fun k' => ?_, fun k' => ?_, fun k' => ?_, fun k' => ?_,
    fun t ht => ?_⟩
  · split
    · rw [← List.concat_eq_append]
      exact (h.nodup k').concat (hfree k')
    · exact h.nodup k'
  · by_cases hts : t = s
    · subst hts
      by_cases hk : k' = k
      · simp [hk]
      · simp [hk, Ne.symm hk, hfree k']
    · dsimp only
      rw [Function.update_of_ne hts, h.owner_iff]
      by_cases hk : k' = k
      · simp [hk, hts]
      · simp [hk]
  · by_cases hk : k' = k
    · subst hk
      dsimp only
      rw [if_pos rfl]
      cases hl : lists k' with
      | nil => simp [h.tail_eq, hl]
      | cons x l => simp [h.tail_eq, h.head_eq, hl]
    · dsimp only
      rw [if_neg hk]
      split
      · rw [Function.update_of_ne hk, h.head_eq]
      · exact h.head_eq k'
  · by_cases hk : k' = k
    · subst hk
      simp
    · dsimp only
      rw [if_neg hk, Function.update_of_ne hk, h.tail_eq]
  · by_cases hk : k' = k
    · subst hk
      dsimp only
      rw [if_pos rfl]
      refine (h.next_chain k').concat (h.nodup k') ?_ (fun t ht hlast => ?_) fun t ht hlast => ?_
      · rw [redirect_apply, if_neg fun heq => hfree k' (htail_mem s heq), Function.update_self]
      · rw [redirect_apply, h.tail_eq, if_pos hlast]
      · rw [redirect_apply, h.tail_eq, if_neg hlast, Function.update_of_ne (hne_of_mem k' t ht)]
    · dsimp only
      rw [if_neg hk]
      refine (h.next_chain k').congr fun t ht => ?_
      rw [redirect_apply, if_neg fun heq => h.not_mem_of_mem (htail_mem t heq) hk ht,
        Function.update_of_ne (hne_of_mem k' t ht)]
  · by_cases hk : k' = k
    · subst hk
      dsimp only
      rw [if_pos rfl, List.reverse_append, List.reverse_singleton, List.singleton_append]
      refine (h.prev_chain k').cons ?_ fun t ht => ?_
      · rw [Function.update_self, h.tail_eq, List.head?_reverse]
      · rw [Function.update_of_ne (hne_of_mem k' t (List.mem_reverse.mp ht))]
    · dsimp only
      rw [if_neg hk]
      refine (h.prev_chain k').congr fun t ht => ?_
      rw [Function.update_of_ne (hne_of_mem k' t (List.mem_reverse.mp ht))]
  · have hts : t ≠ s := by
      rintro rfl
      dsimp only at ht
      rw [Function.update_self] at ht
      cases ht
    dsimp only at ht
    rw [Function.update_of_ne hts] at ht
    have hnt : some t ≠ L.tail k := by
      intro heq
      have hmem := htail_mem t heq
      rw [← h.owner_iff, ht] at hmem
      cases hmem
    dsimp only
    rw [Function.update_of_ne hts, redirect_apply, if_neg hnt, Function.update_of_ne hts]
    exact h.alone t ht

omit [DecidableEq κ] in
theorem Links.owner_remove [DecidableEq κ] (L : Links α κ) (s : α) : (L.remove s).owner s = none := by
  unfold Links.remove
  cases howner : L.owner s with
  | none => exact howner
  | some k => exact Function.update_self ..

/-- **Putting an element at a back** takes it from where it is and appends it there; the others keep
their order. -/
theorem Links.Holds.pushBack (h : L.Holds lists) (k : κ) (s : α) :
    (L.pushBack k s).Holds fun k' =>
      if k' = k then (lists k').erase s ++ [s] else (lists k').erase s :=
  (h.remove s).append k (L.owner_remove s)

omit [DecidableEq α] [DecidableEq κ] in
/-- **The two directions are inverse.** -/
theorem Links.Holds.next_iff_prev {t : α} (h : L.Holds lists) : L.next s = some t ↔ L.prev t = some s := by
  constructor
  · intro hst
    obtain ⟨k, hk⟩ : ∃ k, L.owner s = some k := by
      refine Option.ne_none_iff_exists'.mp fun hnone => ?_
      rw [(h.alone s hnone).2] at hst
      cases hst
    obtain ⟨a, b, hl⟩ := List.append_of_mem ((h.owner_iff s k).mp hk)
    rw [(h.neighbours hl).1] at hst
    obtain ⟨b, rfl⟩ := List.head?_eq_some_iff.mp hst
    rw [(h.neighbours (a := a ++ [s]) (by rw [hl, List.append_assoc]; rfl)).2, List.getLast?_concat]
  · intro hts
    obtain ⟨k, hk⟩ : ∃ k, L.owner t = some k := by
      refine Option.ne_none_iff_exists'.mp fun hnone => ?_
      rw [(h.alone t hnone).1] at hts
      cases hts
    obtain ⟨a, b, hl⟩ := List.append_of_mem ((h.owner_iff t k).mp hk)
    rw [(h.neighbours hl).2] at hts
    obtain ⟨a, rfl⟩ := List.getLast?_eq_some_iff.mp hts
    rw [List.append_assoc] at hl
    rw [(h.neighbours hl).1]
    rfl

end Holds

end LinkedQueues
