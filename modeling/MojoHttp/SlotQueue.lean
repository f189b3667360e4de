import MojoHttp.Lib.LinkedQueues
import Mathlib.Data.List.Perm.Subperm

/-!
# FIFO queues over a loop's slots (`slot_queue.mojo`)

The slots a loop may take back queue in the order they became takeable, each in at most one queue.
The links are intrusive, one `prev` and one `next` for each slot, and `NO_SLOT` is a link to nothing.

* **`SlotQueues.links`** — the arrays as links between slots.
* **`SlotQueues.links_remove`**, **`SlotQueues.links_pushBack`** — the two operations on the arrays are
  those on the links.
* **`slot_queues_are_lists`** — whatever is called, the arrays represent a family of lists.
-/

namespace MojoHttp

open LinkedQueues

/-- What `front` answers for an empty queue, and a link to nothing. -/
def NO_SLOT : Int := -1

structure SlotQueues where
  prev : List Int
  next : List Int
  /-- The queue each slot is in, `NO_SLOT` for none. -/
  queueOf : List Int
  heads : List Int
  tails : List Int
  deriving Repr, DecidableEq

namespace SlotQueues

/-- `__init__`. -/
def new (slots queues : Nat) : SlotQueues where
  prev := List.replicate slots NO_SLOT
  next := List.replicate slots NO_SLOT
  queueOf := List.replicate slots NO_SLOT
  heads := List.replicate queues NO_SLOT
  tails := List.replicate queues NO_SLOT

/-- `l[i]`, for an index within the list. -/
def linkAt (l : List Int) (i : Int) : Int := l.getD i.toNat NO_SLOT

/-- `l[i] = x`, for an index within the list. -/
def setLink (l : List Int) (i x : Int) : List Int := l.set i.toNat x

/-- `remove`: take `slot` out of its queue; nothing when it is in none. -/
def remove (self : SlotQueues) (slot : Int) : SlotQueues :=
  if slot < 0 ∨ slot ≥ self.queueOf.length then self
  else
    let queue := linkAt self.queueOf slot
    if queue = NO_SLOT then self
    else
      let before := linkAt self.prev slot
      let after := linkAt self.next slot
      let heads := if before = NO_SLOT then setLink self.heads queue after else self.heads
      let next := if before = NO_SLOT then self.next else setLink self.next before after
      let tails := if after = NO_SLOT then setLink self.tails queue before else self.tails
      let prev := if after = NO_SLOT then self.prev else setLink self.prev after before
      { prev := setLink prev slot NO_SLOT
        next := setLink next slot NO_SLOT
        queueOf := setLink self.queueOf slot NO_SLOT
        heads, tails }

/-- `push_back`: put `slot` at the back of `queue`, leaving whatever queue it was in. -/
def pushBack (self : SlotQueues) (queue slot : Int) : SlotQueues :=
  if slot < 0 ∨ slot ≥ self.queueOf.length ∨ queue < 0 ∨ queue ≥ self.heads.length then self
  else
    let self := self.remove slot
    let tail := linkAt self.tails queue
    let prev := setLink self.prev slot tail
    let next := setLink self.next slot NO_SLOT
    { prev
      heads := if tail = NO_SLOT then setLink self.heads queue slot else self.heads
      next := if tail = NO_SLOT then next else setLink next tail slot
      tails := setLink self.tails queue slot
      queueOf := setLink self.queueOf slot queue }

/-- The slot that has waited longest in `queue`. -/
def front (self : SlotQueues) (queue : Int) : Int :=
  if queue < 0 ∨ queue ≥ self.heads.length then NO_SLOT else linkAt self.heads queue

/-- The queue `slot` is in. -/
def queue (self : SlotQueues) (slot : Int) : Int :=
  if slot < 0 ∨ slot ≥ self.queueOf.length then NO_SLOT else linkAt self.queueOf slot

/-- `while s != NO_SLOT` of `count`, `none` when `fuel` steps do not reach its end. -/
def countFrom (self : SlotQueues) : (fuel : Nat) → (s : Int) → (n : Nat) → Option Nat
  | 0, _, _ => none
  | fuel + 1, s, n => if s = NO_SLOT then some n else self.countFrom fuel (linkAt self.next s) (n + 1)

def count (self : SlotQueues) (fuel : Nat) (queue : Int) : Option Nat :=
  self.countFrom fuel (self.front queue) 0

inductive Op where
  | pushBack (queue slot : Int)
  | remove (slot : Int)
  deriving Repr, DecidableEq

def apply (self : SlotQueues) : Op → SlotQueues
  | .pushBack queue slot => self.pushBack queue slot
  | .remove slot => self.remove slot

/-- What the two operations are for: to keep lists. An argument out of range changes nothing. -/
def Op.onLists (slots queues : Nat) (lists : Nat → List Nat) : Op → Nat → List Nat
  | .pushBack queue slot =>
    if 0 ≤ slot ∧ slot < slots ∧ 0 ≤ queue ∧ queue < queues then fun k =>
      if k = queue.toNat then (lists k).erase slot.toNat ++ [slot.toNat] else (lists k).erase slot.toNat
    else lists
  | .remove slot => if 0 ≤ slot ∧ slot < slots then fun k => (lists k).erase slot.toNat else lists

/-! ## The arrays as links -/

/-- A link as the arrays write it. -/
def linkInt : Option Nat → Int
  | none => NO_SLOT
  | some s => s

/-- What a link in the arrays leads to. -/
def linkOf (x : Int) : Option Nat := if x = NO_SLOT then none else some x.toNat

@[simp] theorem linkOf_linkInt (o : Option Nat) : linkOf (linkInt o) = o := by
  cases o with
  | none => rfl
  | some s => simp [linkOf, linkInt, NO_SLOT]

/-- Every entry of an array is a link to one of `n`, or to nothing. -/
def Entries (l : List Int) (n : Nat) : Prop := ∀ x ∈ l, ∃ o : Option Nat, x = linkInt o ∧ ∀ s ∈ o, s < n

theorem entries_replicate (m n : Nat) : Entries (List.replicate m NO_SLOT) n := by
  intro x hx
  exact ⟨none, List.eq_of_mem_replicate hx, fun s hs => by cases hs⟩

/-- An array read as links. -/
def follow (l : List Int) (s : Nat) : Option Nat := linkOf (linkAt l s)

theorem linkAt_natCast (l : List Int) (s : Nat) : linkAt l s = l.getD s NO_SLOT := rfl

theorem Entries.linkAt_eq {l : List Int} {n : Nat} (h : Entries l n) (i : Int) :
    linkAt l i = linkInt (follow l i.toNat) ∧ ∀ s ∈ follow l i.toNat, s < n := by
  have hat : linkAt l i = linkAt l (i.toNat : Int) := rfl
  by_cases hi : i.toNat < l.length
  · obtain ⟨o, ho, hlt⟩ := h l[i.toNat] (List.getElem_mem hi)
    have hlink : linkAt l i = linkInt o := by
      rw [linkAt, List.getD_eq_getElem?_getD, List.getElem?_eq_getElem hi]
      exact ho
    have hof : follow l i.toNat = o := by rw [follow, ← hat, hlink, linkOf_linkInt]
    rw [hof]
    exact ⟨hlink, hlt⟩
  · have hlink : linkAt l i = NO_SLOT := by
      rw [linkAt, List.getD_eq_getElem?_getD, List.getElem?_eq_none (by omega)]
      rfl
    have hof : follow l i.toNat = none := by
      rw [follow, ← hat, hlink]
      rfl
    rw [hof]
    exact ⟨hlink, fun s hs => by cases hs⟩

theorem Entries.setLink {l : List Int} {n : Nat} (h : Entries l n) (i : Int) {o : Option Nat}
    (ho : ∀ s ∈ o, s < n) : Entries (setLink l i (linkInt o)) n := by
  intro x hx
  rcases List.mem_or_eq_of_mem_set hx with hx | rfl
  · exact h x hx
  · exact ⟨o, rfl, ho⟩

theorem follow_setLink {l : List Int} {i : Nat} (hi : i < l.length) (o : Option Nat) :
    follow (setLink l i (linkInt o)) = Function.update (follow l) i o := by
  funext s
  rw [follow, linkAt_natCast, setLink, Int.toNat_natCast, List.getD_eq_getElem?_getD,
    List.getElem?_set]
  by_cases hs : i = s
  · subst hs
    simp [hi]
  · rw [if_neg hs, Function.update_of_ne (Ne.symm hs), follow, linkAt_natCast,
      List.getD_eq_getElem?_getD]

def links (self : SlotQueues) : Links Nat Nat where
  prev := follow self.prev
  next := follow self.next
  owner := follow self.queueOf
  head := follow self.heads
  tail := follow self.tails

/-- The arrays have their lengths and hold links within them. -/
structure WellFormed (slots queues : Nat) (sq : SlotQueues) : Prop where
  length_prev : sq.prev.length = slots
  length_next : sq.next.length = slots
  length_queueOf : sq.queueOf.length = slots
  length_heads : sq.heads.length = queues
  length_tails : sq.tails.length = queues
  prev : Entries sq.prev slots
  next : Entries sq.next slots
  queueOf : Entries sq.queueOf queues
  heads : Entries sq.heads slots
  tails : Entries sq.tails slots

theorem wellFormed_new (slots queues : Nat) : WellFormed slots queues (new slots queues) := by
  refine ⟨?_, ?_, ?_, ?_, ?_, ?_, ?_, ?_, ?_, ?_⟩
  all_goals first
    | exact List.length_replicate
    | exact entries_replicate _ _

theorem links_new (slots queues : Nat) : (new slots queues).links = Links.empty := by
  have h : ∀ n, follow (List.replicate n NO_SLOT) = fun _ => none := by
    intro n
    funext s
    rw [follow, linkAt_natCast, List.getD_eq_getElem?_getD, List.getElem?_replicate]
    split <;> rfl
  simp only [links, new, h]
  rfl

section Steps

variable {slots queues : Nat} {self : SlotQueues}

/-- `if link = NO_SLOT` asks whether there is a link. -/
theorem ite_linkInt {α : Type} (o : Option Nat) (x y : α) :
    (if linkInt o = NO_SLOT then x else y) = if o = none then x else y := by
  cases o with
  | none => rfl
  | some s => simp [linkInt, NO_SLOT]

@[simp] theorem length_setLink (l : List Int) (i x : Int) : (setLink l i x).length = l.length :=
  List.length_set

/-- The link of a neighbour is written when there is a neighbour. -/
def relink (l : List Int) (source target : Option Nat) : List Int :=
  if source = none then l else setLink l (linkInt source) (linkInt target)

@[simp] theorem length_relink (l : List Int) (source target : Option Nat) :
    (relink l source target).length = l.length := by
  unfold relink
  split
  · rfl
  · exact length_setLink ..

theorem Entries.relink {l : List Int} {n : Nat} (h : Entries l n) (source : Option Nat)
    {target : Option Nat} (ht : ∀ s ∈ target, s < n) : Entries (relink l source target) n := by
  unfold SlotQueues.relink
  split
  · exact h
  · exact h.setLink _ ht

theorem follow_relink {l : List Int} {source : Option Nat} (h : ∀ s ∈ source, s < l.length)
    (target : Option Nat) : follow (relink l source target) = redirect (follow l) source target := by
  cases source with
  | none => rfl
  | some s => exact follow_setLink (h s rfl) target

theorem follow_end {l : List Int} {k : Nat} (hk : k < l.length) (c : Prop) [Decidable c] (o : Option Nat) :
    follow (if c then setLink l k (linkInt o) else l) =
      if c then Function.update (follow l) k o else follow l := by
  split
  · exact follow_setLink hk o
  · rfl

theorem Entries.ite {l l' : List Int} {n : Nat} (h : Entries l n) (h' : Entries l' n) (c : Prop) [Decidable c] :
    Entries (if c then l else l') n := by
  split
  · exact h
  · exact h'

theorem none_lt {n : Nat} : ∀ s ∈ (none : Option Nat), s < n := by
  intro s hs
  cases hs

/-- `remove` of a slot that is in a queue, by what its links are. -/
theorem remove_eq (h : WellFormed slots queues self) {s k : Nat} (hs : s < slots)
    (hk : follow self.queueOf s = some k) :
    self.remove s =
      { prev := setLink (relink self.prev (follow self.next s) (follow self.prev s)) s (linkInt none)
        next := setLink (relink self.next (follow self.prev s) (follow self.next s)) s (linkInt none)
        queueOf := setLink self.queueOf s (linkInt none)
        heads := if follow self.prev s = none then setLink self.heads k (linkInt (follow self.next s)) else self.heads
        tails := if follow self.next s = none then setLink self.tails k (linkInt (follow self.prev s)) else self.tails } := by
  have hrange : ¬ ((s : Int) < 0 ∨ (s : Int) ≥ self.queueOf.length) := by
    rw [h.length_queueOf]
    omega
  have howner := (h.queueOf.linkAt_eq s).1
  have hprev := (h.prev.linkAt_eq s).1
  have hnext := (h.next.linkAt_eq s).1
  rw [Int.toNat_natCast] at howner hprev hnext
  unfold remove relink
  rw [if_neg hrange]
  dsimp only
  rw [howner, hprev, hnext, hk, if_neg (by simp [linkInt, NO_SLOT])]
  simp only [ite_linkInt]
  rfl

/-- **`remove` on the arrays is `remove` on the links.** -/
theorem links_remove (h : WellFormed slots queues self) {s : Nat} (hs : s < slots) :
    (self.remove s).links = self.links.remove s ∧ WellFormed slots queues (self.remove s) := by
  have hprev_lt := (h.prev.linkAt_eq s).2
  have hnext_lt := (h.next.linkAt_eq s).2
  rw [Int.toNat_natCast] at hprev_lt hnext_lt
  cases hk : follow self.queueOf s with
  | none =>
    have howner := (h.queueOf.linkAt_eq s).1
    rw [Int.toNat_natCast, hk] at howner
    have hstays : self.remove s = self := by
      unfold remove
      dsimp only
      rw [howner]
      simp [linkInt]
    have hlinks : self.links.remove s = self.links := by
      unfold Links.remove
      rw [show self.links.owner s = none from hk]
    rw [hstays, hlinks]
    exact ⟨rfl, h⟩
  | some k =>
    have hklt : k < queues := by
      have hlt := (h.queueOf.linkAt_eq s).2
      rw [Int.toNat_natCast] at hlt
      exact hlt k hk
    rw [remove_eq h hs hk]
    constructor
    · unfold Links.remove
      rw [show self.links.owner s = some k from hk]
      unfold links
      dsimp only
      rw [follow_setLink (by rw [length_relink, h.length_prev]; exact hs),
        follow_setLink (by rw [length_relink, h.length_next]; exact hs),
        follow_setLink (by rw [h.length_queueOf]; exact hs),
        follow_relink (by rw [h.length_prev]; exact hnext_lt),
        follow_relink (by rw [h.length_next]; exact hprev_lt),
        follow_end (by rw [h.length_heads]; exact hklt),
        follow_end (by rw [h.length_tails]; exact hklt)]
    · refine ⟨?_, ?_, ?_, ?_, ?_, ?_, ?_, ?_, ?_, ?_⟩
      · rw [length_setLink, length_relink, h.length_prev]
      · rw [length_setLink, length_relink, h.length_next]
      · rw [length_setLink, h.length_queueOf]
      · rw [apply_ite List.length, length_setLink, ite_self, h.length_heads]
      · rw [apply_ite List.length, length_setLink, ite_self, h.length_tails]
      · exact (h.prev.relink _ hprev_lt).setLink _ none_lt
      · exact (h.next.relink _ hnext_lt).setLink _ none_lt
      · exact h.queueOf.setLink _ none_lt
      · exact (h.heads.setLink _ hnext_lt).ite h.heads _
      · exact (h.tails.setLink _ hprev_lt).ite h.tails _

/-- **`push_back` on the arrays is `pushBack` on the links.** -/
theorem links_pushBack (h : WellFormed slots queues self) {s k : Nat} (hs : s < slots) (hk : k < queues) :
    (self.pushBack k s).links = self.links.pushBack k s ∧
      WellFormed slots queues (self.pushBack k s) := by
  have hrange : ¬ ((s : Int) < 0 ∨ (s : Int) ≥ self.queueOf.length ∨ (k : Int) < 0 ∨
      (k : Int) ≥ self.heads.length) := by
    rw [h.length_queueOf, h.length_heads]
    omega
  obtain ⟨hlinks, hr⟩ := links_remove h hs
  have hsome : ∀ t ∈ some s, t < slots := fun t ht => Option.some.inj ht ▸ hs
  have heq : self.pushBack k s =
      { prev := setLink (self.remove s).prev s (linkInt (follow (self.remove s).tails k))
        next := relink (setLink (self.remove s).next s (linkInt none)) (follow (self.remove s).tails k) (some s)
        queueOf := setLink (self.remove s).queueOf s (linkInt (some k))
        heads := if follow (self.remove s).tails k = none then setLink (self.remove s).heads k (linkInt (some s))
          else (self.remove s).heads
        tails := setLink (self.remove s).tails k (linkInt (some s)) } := by
    have htail := (hr.tails.linkAt_eq k).1
    rw [Int.toNat_natCast] at htail
    unfold pushBack relink
    rw [if_neg hrange]
    dsimp only
    rw [htail]
    simp only [ite_linkInt]
    rfl
  have htail_lt := (hr.tails.linkAt_eq k).2
  rw [Int.toNat_natCast] at htail_lt
  rw [heq]
  constructor
  · unfold Links.pushBack
    rw [← hlinks]
    unfold Links.append links
    dsimp only
    rw [follow_setLink (by rw [hr.length_prev]; exact hs),
      follow_relink (by rw [length_setLink, hr.length_next]; exact htail_lt),
      follow_setLink (by rw [hr.length_next]; exact hs),
      follow_setLink (by rw [hr.length_queueOf]; exact hs),
      follow_end (by rw [hr.length_heads]; exact hk),
      follow_setLink (by rw [hr.length_tails]; exact hk)]
  · refine ⟨?_, ?_, ?_, ?_, ?_, ?_, ?_, ?_, ?_, ?_⟩
    · rw [length_setLink, hr.length_prev]
    · rw [length_relink, length_setLink, hr.length_next]
    · rw [length_setLink, hr.length_queueOf]
    · rw [apply_ite List.length, length_setLink, ite_self, hr.length_heads]
    · rw [length_setLink, hr.length_tails]
    · exact hr.prev.setLink _ htail_lt
    · exact (hr.next.setLink _ none_lt).relink _ hsome
    · exact hr.queueOf.setLink _ fun t ht => Option.some.inj ht ▸ hk
    · exact (hr.heads.setLink _ hsome).ite hr.heads _
    · exact hr.tails.setLink _ hsome

end Steps

/-! ## The lists the arrays represent -/

/-- The list an argument names, empty for one out of range. -/
def listAt (queues : Nat) (lists : Nat → List Nat) (queue : Int) : List Nat :=
  if 0 ≤ queue ∧ queue < queues then lists queue.toNat else []

/-- The arrays represent `lists`. -/
structure Represents (slots queues : Nat) (sq : SlotQueues) (lists : Nat → List Nat) : Prop where
  /-- Each slot is in a queue at most once, and in at most one. -/
  nodup : ∀ k, (lists k).Nodup
  disjoint : ∀ s k k', s ∈ lists k → s ∈ lists k' → k = k'
  in_range : ∀ s k, s ∈ lists k → s < slots ∧ k < queues
  /-- `queue_of` names that queue. -/
  queueOf : ∀ s < slots, ∀ k : Nat, sq.queueOf[s]? = some (k : Int) ↔ s ∈ lists k
  queueOf_none : ∀ s < slots, sq.queueOf[s]? = some NO_SLOT ↔ ∀ k, s ∉ lists k
  /-- Heads and tails are the ends. -/
  heads : ∀ k < queues, sq.heads[k]? = some (linkInt (lists k).head?)
  tails : ∀ k < queues, sq.tails[k]? = some (linkInt (lists k).getLast?)
  /-- `prev` and `next` lead to the neighbours. -/
  linked : ∀ k a s b, lists k = a ++ s :: b →
    sq.prev[s]? = some (linkInt a.getLast?) ∧ sq.next[s]? = some (linkInt b.head?)
  inverse : ∀ s < slots, ∀ t < slots, sq.next[s]? = some (t : Int) ↔ sq.prev[t]? = some (s : Int)
  /-- The readers answer what the lists answer. -/
  front : ∀ queue, sq.front queue = linkInt (listAt queues lists queue).head?
  queue : ∀ s k : Nat, sq.queue s = k ↔ s ∈ lists k
  queue_none : ∀ slot : Int, sq.queue slot = NO_SLOT ↔ 0 ≤ slot → ∀ k, slot.toNat ∉ lists k
  count : ∀ fuel, slots < fuel → ∀ queue, sq.count fuel queue = some (listAt queues lists queue).length

section Represents

variable {slots queues : Nat} {sq : SlotQueues} {lists : Nat → List Nat}

theorem Entries.getElem?_eq {l : List Int} {n s : Nat} (h : Entries l n) (hs : s < l.length) :
    l[s]? = some (linkInt (follow l s)) := by
  have hat := (h.linkAt_eq s).1
  rw [Int.toNat_natCast, linkAt_natCast, List.getD_eq_getElem?_getD, List.getElem?_eq_getElem hs] at hat
  rw [List.getElem?_eq_getElem hs]
  exact congrArg some hat

@[simp] theorem linkInt_eq_natCast (o : Option Nat) (k : Nat) : linkInt o = k ↔ o = some k := by
  cases o with
  | none => simp [linkInt, NO_SLOT]
  | some s => rw [linkInt, Int.natCast_inj, Option.some.injEq]

@[simp] theorem linkInt_eq_none (o : Option Nat) : linkInt o = NO_SLOT ↔ o = none := by
  cases o with
  | none => simp [linkInt]
  | some s => simp [linkInt, NO_SLOT]

/-- The walk of `count` is along the list. -/
theorem countFrom_eq (hw : WellFormed slots queues sq) (hl : sq.links.Holds lists) {k : Nat}
    {a b : List Nat} (hab : lists k = a ++ b) {fuel : Nat} (hfuel : b.length < fuel) (n : Nat) :
    sq.countFrom fuel (linkInt b.head?) n = some (n + b.length) := by
  induction b generalizing a fuel n with
  | nil =>
    obtain ⟨fuel, rfl⟩ := Nat.exists_eq_succ_of_ne_zero (by omega : fuel ≠ 0)
    rfl
  | cons s b ih =>
    obtain ⟨fuel, rfl⟩ := Nat.exists_eq_succ_of_ne_zero (by omega : fuel ≠ 0)
    have hnext : linkAt sq.next s = linkInt b.head? := by
      rw [(hw.next.linkAt_eq s).1, Int.toNat_natCast]
      exact congrArg linkInt (hl.neighbours hab).1
    rw [List.head?_cons, countFrom, if_neg (by simp), show linkInt (some s) = (s : Int) from rfl, hnext,
      ih (a := a ++ [s]) (by rw [hab, List.append_assoc]; rfl) (by simpa using hfuel)]
    rw [List.length_cons]
    congr 1
    omega

theorem represents (hw : WellFormed slots queues sq) (hl : sq.links.Holds lists) :
    Represents slots queues sq lists := by
  have hrange : ∀ s k, s ∈ lists k → s < slots ∧ k < queues := by
    intro s k hs
    have howner : follow sq.queueOf s = some k := (hl.owner_iff s k).mpr hs
    constructor
    · by_contra hslot
      rw [follow, linkAt_natCast, List.getD_eq_getElem?_getD,
        List.getElem?_eq_none (by rw [hw.length_queueOf]; omega)] at howner
      cases howner
    · exact (hw.queueOf.linkAt_eq s).2 k howner
  have hat : ∀ queue : Int, listAt queues lists queue = lists queue.toNat ∨ listAt queues lists queue = [] := by
    intro queue
    unfold listAt
    split
    · exact .inl rfl
    · exact .inr rfl
  have hfront : ∀ queue, sq.front queue = linkInt (listAt queues lists queue).head? := by
    intro queue
    unfold front listAt
    rw [hw.length_heads]
    by_cases hq : 0 ≤ queue ∧ queue < queues
    · rw [if_neg (by omega), if_pos hq, (hw.heads.linkAt_eq queue).1]
      exact congrArg linkInt (hl.head_eq queue.toNat)
    · rw [if_pos (by omega), if_neg hq]
      rfl
  have hfalse : ∀ s : Nat, slots ≤ s → ∀ k, s ∉ lists k := fun s hle k hs =>
    absurd (hrange s k hs).1 (by omega)
  refine ⟨hl.nodup, ?_, hrange, ?_, ?_, ?_, ?_, ?_, ?_, hfront, ?_, ?_, ?_⟩
  · intro s k k' hs hs'
    rw [← hl.owner_iff] at hs hs'
    exact Option.some.inj (hs.symm.trans hs')
  · intro s hs k
    rw [hw.queueOf.getElem?_eq (by rw [hw.length_queueOf]; exact hs), Option.some.injEq,
      linkInt_eq_natCast]
    exact hl.owner_iff s k
  · intro s hs
    rw [hw.queueOf.getElem?_eq (by rw [hw.length_queueOf]; exact hs), Option.some.injEq,
      linkInt_eq_none, Option.eq_none_iff_forall_ne_some]
    exact forall_congr' fun k => not_congr (hl.owner_iff s k)
  · intro k hk
    rw [hw.heads.getElem?_eq (by rw [hw.length_heads]; exact hk)]
    exact congrArg (some ∘ linkInt) (hl.head_eq k)
  · intro k hk
    rw [hw.tails.getElem?_eq (by rw [hw.length_tails]; exact hk)]
    exact congrArg (some ∘ linkInt) (hl.tail_eq k)
  · intro k a s b hab
    have hs : s < slots := (hrange s k (by rw [hab]; simp)).1
    rw [hw.prev.getElem?_eq (by rw [hw.length_prev]; exact hs),
      hw.next.getElem?_eq (by rw [hw.length_next]; exact hs)]
    obtain ⟨hnext, hprev⟩ := hl.neighbours hab
    exact ⟨congrArg (some ∘ linkInt) hprev, congrArg (some ∘ linkInt) hnext⟩
  · intro s hs t ht
    rw [hw.prev.getElem?_eq (by rw [hw.length_prev]; exact ht),
      hw.next.getElem?_eq (by rw [hw.length_next]; exact hs), Option.some.injEq, Option.some.injEq,
      linkInt_eq_natCast, linkInt_eq_natCast]
    exact hl.next_iff_prev
  · intro s k
    unfold queue
    rw [hw.length_queueOf]
    by_cases hs : s < slots
    · rw [if_neg (by omega), (hw.queueOf.linkAt_eq s).1, linkInt_eq_natCast]
      exact hl.owner_iff s k
    · rw [if_pos (by omega)]
      refine iff_of_false ?_ (hfalse s (by omega) k)
      simp [NO_SLOT]
  · intro slot
    unfold queue
    rw [hw.length_queueOf]
    by_cases hs : slot < 0 ∨ slot ≥ slots
    · rw [if_pos hs]
      exact iff_of_true rfl fun hle k => hfalse _ (by omega) k
    · rw [if_neg hs, (hw.queueOf.linkAt_eq slot).1, linkInt_eq_none, Option.eq_none_iff_forall_ne_some]
      constructor
      · intro h _ k hmem
        exact h k ((hl.owner_iff _ k).mpr hmem)
      · intro h k howner
        exact h (by omega) k ((hl.owner_iff _ k).mp howner)
  · intro fuel hfuel queue
    unfold count
    rw [hfront]
    rcases hat queue with hlist | hlist
    · rw [hlist]
      have hlen : (lists queue.toNat).length ≤ slots := by
        have hsub : (lists queue.toNat) ⊆ List.range slots := fun s hs =>
          List.mem_range.mpr (hrange s _ hs).1
        have hle := (List.subperm_of_subset (hl.nodup queue.toNat) hsub).length_le
        rwa [List.length_range] at hle
      rw [countFrom_eq hw hl (List.nil_append _).symm (by omega), Nat.zero_add]
    · rw [hlist]
      obtain ⟨fuel, rfl⟩ := Nat.exists_eq_succ_of_ne_zero (by omega : fuel ≠ 0)
      rfl

/-- One call on the arrays is the call on the lists. -/
theorem apply_onLists (hw : WellFormed slots queues sq) (hl : sq.links.Holds lists) (op : Op) :
    WellFormed slots queues (sq.apply op) ∧
      (sq.apply op).links.Holds (op.onLists slots queues lists) := by
  cases op with
  | pushBack queue slot =>
    by_cases hin : 0 ≤ slot ∧ slot < slots ∧ 0 ≤ queue ∧ queue < queues
    · obtain ⟨s, rfl⟩ := Int.eq_ofNat_of_zero_le hin.1
      obtain ⟨k, rfl⟩ := Int.eq_ofNat_of_zero_le hin.2.2.1
      obtain ⟨hlinks, hwf⟩ := links_pushBack hw (s := s) (k := k) (by omega) (by omega)
      refine ⟨hwf, ?_⟩
      show (sq.pushBack k s).links.Holds (if _ then _ else _)
      rw [if_pos hin, hlinks]
      exact hl.pushBack k s
    · have hstays : sq.apply (.pushBack queue slot) = sq := by
        show sq.pushBack queue slot = sq
        unfold pushBack
        rw [if_pos (by rw [hw.length_queueOf, hw.length_heads]; omega)]
      rw [hstays]
      refine ⟨hw, ?_⟩
      show sq.links.Holds (if _ then _ else _)
      rw [if_neg hin]
      exact hl
  | remove slot =>
    by_cases hin : 0 ≤ slot ∧ slot < slots
    · obtain ⟨s, rfl⟩ := Int.eq_ofNat_of_zero_le hin.1
      obtain ⟨hlinks, hwf⟩ := links_remove hw (s := s) (by omega)
      refine ⟨hwf, ?_⟩
      show (sq.remove s).links.Holds (if _ then _ else _)
      rw [if_pos hin, hlinks]
      exact hl.remove s
    · have hstays : sq.apply (.remove slot) = sq := by
        show sq.remove slot = sq
        unfold remove
        rw [if_pos (by rw [hw.length_queueOf]; omega)]
      rw [hstays]
      refine ⟨hw, ?_⟩
      show sq.links.Holds (if _ then _ else _)
      rw [if_neg hin]
      exact hl

/-- Whatever is called on arrays that hold lists, they hold the lists the calls lead to. -/
theorem foldl_apply (ops : List Op) (hw : WellFormed slots queues sq) (hl : sq.links.Holds lists) :
    WellFormed slots queues (ops.foldl apply sq) ∧
      (ops.foldl apply sq).links.Holds (ops.foldl (fun lists op => op.onLists slots queues lists) lists) := by
  induction ops generalizing sq lists with
  | nil => exact ⟨hw, hl⟩
  | cons op ops ih =>
    obtain ⟨hw', hl'⟩ := apply_onLists hw hl op
    exact ih hw' hl'

end Represents

end SlotQueues

open SlotQueues in
/-- **`SlotQueues` is a family of disjoint FIFO queues.** Whatever is called on a fresh one, its
arrays represent the lists the same calls lead to: `push_back` puts a slot at the back of its queue
and keeps the order of the others, `remove` deletes only it, and arguments out of range do nothing. -/
theorem slot_queues_are_lists (slots queues : Nat) (ops : List Op) :
    Represents slots queues (ops.foldl apply (SlotQueues.new slots queues))
      (ops.foldl (fun lists op => op.onLists slots queues lists) fun _ => []) := by
  have hnew := links_new slots queues ▸ Links.holds_empty
  obtain ⟨hw, hl⟩ := foldl_apply ops (wellFormed_new slots queues) hnew
  exact represents hw hl

end MojoHttp
