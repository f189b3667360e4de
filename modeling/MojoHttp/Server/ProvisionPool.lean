import MojoHttp.Lib.PackedBits
import Mathlib.Data.Finset.Card
import Mathlib.Order.Bounds.Basic

/-!
# The provision pool (`server.mojo`)

A connection's buffers come out of a pool that is built once: a slot is borrowed when a client is
accepted and released when it goes. Which slots are free is one bit each, packed in 64-bit words
from the most significant bit down, a set bit a free slot.

* **`ProvisionPool.borrow`**, **`ProvisionPool.release`** — the two operations.
* **`ProvisionPool.Reaches`** — the pools that borrows and releases lead to, with the slots that are
  borrowed and not released.
* **`ProvisionPool.Sound`** — a bit is set for the slots below the capacity that nobody holds.
* **`ProvisionPool.Reaches.buffered`** — a slot that is handed out has its buffers.
* **`provision_pool_allocates`** — no slot is handed out twice.
-/

namespace MojoHttp

inductive ProvisionError where
  | provisionPoolExhausted
  deriving Repr, DecidableEq

def ProvisionError.message : ProvisionError → String
  | provisionPoolExhausted => "ProvisionError: Connection provision pool exhausted"

/-- What `ensure_buffers` sizes of a connection's provision: the capacities of its buffers. -/
structure ConnectionProvision where
  recvBuffer : Nat := 0
  recvStaging : Nat := 0
  encodingBuffer : Nat := 0
  deriving Repr, DecidableEq

/-- `ensure_buffers`: once, the first time the provision is used. -/
def ConnectionProvision.ensureBuffers (self : ConnectionProvision) (size : Nat) : ConnectionProvision :=
  if self.recvStaging > 0 then self
  else
    { recvBuffer := max self.recvBuffer size
      recvStaging := max self.recvStaging size
      encodingBuffer := max self.encodingBuffer size }

structure ProvisionPool where
  provisions : List ConnectionProvision
  /-- Bit 1 is free, bit 0 in use, the most significant bit first. -/
  bitmask : List (BitVec 64)
  numWords : Nat
  capacity : Nat
  bufferSize : Nat
  deriving Repr, DecidableEq

namespace ProvisionPool

/-- `__init__`. -/
def new (capacity bufferSize : Nat) : ProvisionPool :=
  let numWords := (capacity + 63) / 64
  let bitmask := List.replicate numWords (~~~ 0#64)
  let remainder := capacity % 64
  { provisions := List.replicate capacity {}
    -- the bits beyond the capacity are no slots
    bitmask := if remainder ≠ 0 then bitmask.set (numWords - 1) (~~~ 0#64 <<< (64 - remainder)) else bitmask
    numWords, capacity, bufferSize }

/-- `for w in range(self.num_words)` of `borrow`. -/
def borrowFrom (self : ProvisionPool) : (ws : List Nat) → Except ProvisionError Nat × ProvisionPool
  | [] => (.error .provisionPoolExhausted, self)
  | w :: ws =>
    let word := self.bitmask.getD w 0
    if word ≠ 0 then
      let bitPos := word.clz.toNat
      let index := w * 64 + bitPos
      (.ok index,
        { self with
          bitmask := self.bitmask.set w (word &&& ~~~ (1#64 <<< (63 - bitPos)))
          provisions := self.provisions.modify index fun p => p.ensureBuffers self.bufferSize })
    else self.borrowFrom ws

/-- `borrow`: what it raises or returns, and the pool behind it. -/
def borrow (self : ProvisionPool) : Except ProvisionError Nat × ProvisionPool :=
  self.borrowFrom (List.range self.numWords)

def release (self : ProvisionPool) (index : Nat) : ProvisionPool :=
  let w := index / 64
  let bitPos := index % 64
  { self with bitmask := self.bitmask.set w (self.bitmask.getD w 0 ||| 1#64 <<< (63 - bitPos)) }

def availableCount (self : ProvisionPool) : Nat :=
  ((List.range self.numWords).map fun w => (self.bitmask.getD w 0).cpop.toNat).sum

/-- The slot's bit says it is free. -/
def IsFree (self : ProvisionPool) (index : Nat) : Prop := PackedBits.Mem self.bitmask index

instance (self : ProvisionPool) : DecidablePred self.IsFree :=
  inferInstanceAs (DecidablePred (PackedBits.Mem self.bitmask))

/-- The pools a run of borrows and releases leads to, and the slots it has borrowed and not
released. Only such a slot is released. -/
inductive Reaches (capacity bufferSize : Nat) : ProvisionPool → Finset Nat → Prop
  | new : Reaches capacity bufferSize (.new capacity bufferSize) ∅
  | borrow {pool pool' : ProvisionPool} {borrowed : Finset Nat} {index : Nat} :
    Reaches capacity bufferSize pool borrowed → pool.borrow = (.ok index, pool') →
    Reaches capacity bufferSize pool' (insert index borrowed)
  | raised {pool pool' : ProvisionPool} {borrowed : Finset Nat} {e : ProvisionError} :
    Reaches capacity bufferSize pool borrowed → pool.borrow = (.error e, pool') →
    Reaches capacity bufferSize pool' borrowed
  | release {pool : ProvisionPool} {borrowed : Finset Nat} {index : Nat} :
    Reaches capacity bufferSize pool borrowed → index ∈ borrowed →
    Reaches capacity bufferSize (pool.release index) (borrowed.erase index)

/-! ## One operation -/

/-- A pool's words and its capacity. -/
structure Shape (capacity : Nat) (pool : ProvisionPool) : Prop where
  capacity_eq : pool.capacity = capacity
  numWords_eq : pool.numWords = (capacity + 63) / 64
  length_bitmask : pool.bitmask.length = pool.numWords
  length_provisions : pool.provisions.length = capacity

theorem shape_new (capacity bufferSize : Nat) : Shape capacity (.new capacity bufferSize) := by
  refine ⟨rfl, rfl, ?_, List.length_replicate⟩
  unfold new
  dsimp only
  split
  · rw [List.length_set, List.length_replicate]
  · exact List.length_replicate

/-- A word of a fresh pool, all its slots free, or beyond the end. -/
theorem getMsbD_word (c : Prop) [Decidable c] (i : Nat) :
    (if c then ~~~ 0#64 else 0#64).getMsbD (i % 64) = true ↔ c := by
  have hmod : i % 64 < 64 := Nat.mod_lt i (by decide)
  by_cases hc : c
  · rw [if_pos hc, BitVec.getMsbD_not, BitVec.getMsbD_zero]
    simp [hmod, hc]
  · simp [hc]

/-- **At the start the slots below the capacity are free**, and no bit beyond them is set. -/
theorem isFree_new (capacity bufferSize i : Nat) : (new capacity bufferSize).IsFree i ↔ i < capacity := by
  have hword : ∀ k, (List.replicate ((capacity + 63) / 64) (~~~ 0#64)).getD k 0 =
      if k < (capacity + 63) / 64 then ~~~ 0#64 else 0#64 := by
    intro k
    rw [List.getD_eq_getElem?_getD, List.getElem?_replicate]
    split <;> rfl
  show PackedBits.Mem (new capacity bufferSize).bitmask i ↔ _
  unfold PackedBits.Mem new
  dsimp only
  by_cases hrem : capacity % 64 ≠ 0
  · rw [if_pos hrem, PackedBits.getD_set, List.length_replicate, hword]
    -- the last word holds the remainder
    by_cases hlast : i / 64 = (capacity + 63) / 64 - 1
    · rw [if_pos ⟨hlast, by omega⟩, BitVec.getMsbD_shiftLeft, BitVec.getMsbD_not, BitVec.getMsbD_zero]
      simp only [Bool.not_false, Bool.and_true, decide_eq_true_eq]
      omega
    · rw [if_neg fun h => hlast h.1, getMsbD_word]
      omega
  · rw [if_neg hrem, hword, getMsbD_word]
    omega

/-- **A borrow, if it returns**: the slot is the least that is free, and its bit alone is cleared. -/
theorem borrowFrom_ok {pool pool' : ProvisionPool} {index k n : Nat}
    (hlen : k + n ≤ pool.bitmask.length) (hbefore : ∀ j, pool.IsFree j → k * 64 ≤ j)
    (h : pool.borrowFrom (List.range' k n) = (.ok index, pool')) :
    IsLeast {j | pool.IsFree j} index ∧ (∀ j, pool'.IsFree j ↔ pool.IsFree j ∧ j ≠ index) ∧
      pool'.bitmask.length = pool.bitmask.length ∧ pool' =
        { pool with
          bitmask := pool'.bitmask
          provisions := pool.provisions.modify index fun p => p.ensureBuffers pool.bufferSize } := by
  -- on the words, the first of which `range'` starts with
  induction n generalizing k with
  | zero => cases h
  | succ n ih =>
    rw [List.range'_succ, borrowFrom] at h
    dsimp only at h
    by_cases hword : pool.bitmask.getD k 0 ≠ 0
    · rw [if_pos hword] at h
      obtain ⟨hlt, hset⟩ := PackedBits.getMsbD_clz hword
      cases h
      refine ⟨⟨(PackedBits.mem_of_word hlt).mpr hset, ?_⟩, ?_, List.length_set, rfl⟩
      · intro j hj
        by_contra hless
        have hword : j = k * 64 + (j - k * 64) := by have := hbefore j hj; omega
        have hclear := PackedBits.getMsbD_of_lt_clz
          (show j - k * 64 < (pool.bitmask.getD k 0).clz.toNat by omega)
        rw [Set.mem_ofPred_eq, hword, IsFree, PackedBits.mem_of_word (by omega), hclear] at hj
        cases hj
      · exact PackedBits.mem_clearBit (by omega) hlt
    · rw [if_neg hword] at h
      refine ih (by omega) ?_ h
      intro j hj
      by_contra hless
      have hbound := hbefore j hj
      have hzero := PackedBits.eq_zero_iff.mp (not_ne_iff.mp hword) (j - k * 64) (by omega)
      rw [show j = k * 64 + (j - k * 64) by omega, IsFree, PackedBits.mem_of_word (by omega),
        hzero] at hj
      cases hj

/-- **A borrow that raises** leaves the pool as it is, and no slot is free. -/
theorem borrowFrom_error {pool pool' : ProvisionPool} {e : ProvisionError} {k n : Nat}
    (h : pool.borrowFrom (List.range' k n) = (.error e, pool')) :
    pool' = pool ∧ ∀ j, k * 64 ≤ j → j < (k + n) * 64 → ¬ pool.IsFree j := by
  induction n generalizing k with
  | zero =>
    cases h
    exact ⟨rfl, fun j _ _ => by omega⟩
  | succ n ih =>
    rw [List.range'_succ, borrowFrom] at h
    dsimp only at h
    by_cases hword : pool.bitmask.getD k 0 ≠ 0
    · rw [if_pos hword] at h
      cases h
    · rw [if_neg hword] at h
      obtain ⟨hpool, hnone⟩ := ih h
      refine ⟨hpool, fun j hle hlt hfree => ?_⟩
      by_cases hnext : (k + 1) * 64 ≤ j
      · exact hnone j hnext (by omega) hfree
      · have hzero := PackedBits.eq_zero_iff.mp (not_ne_iff.mp hword) (j - k * 64) (by omega)
        rw [show j = k * 64 + (j - k * 64) by omega, IsFree, PackedBits.mem_of_word (by omega),
          hzero] at hfree
        cases hfree

theorem isFree_release {pool : ProvisionPool} {index : Nat} (h : index / 64 < pool.bitmask.length)
    (j : Nat) : (pool.release index).IsFree j ↔ pool.IsFree j ∨ j = index := by
  have hset := PackedBits.mem_setBit h (Nat.mod_lt index (by decide : 0 < 64)) j
  rw [Nat.div_add_mod'] at hset
  exact hset

/-! ## Runs -/

/-- A slot's bit is set when it is below the capacity and nobody holds it. -/
structure Sound (capacity : Nat) (pool : ProvisionPool) (borrowed : Finset Nat) : Prop where
  shape : Shape capacity pool
  isFree : ∀ i, pool.IsFree i ↔ i < capacity ∧ i ∉ borrowed
  below : ∀ i ∈ borrowed, i < capacity

section Sound

variable {capacity : Nat} {pool pool' : ProvisionPool} {borrowed : Finset Nat} {index : Nat}
  {e : ProvisionError}

theorem Sound.borrow_ok (hs : Sound capacity pool borrowed) (h : pool.borrow = (.ok index, pool')) :
    IsLeast {j | pool.IsFree j} index ∧ (∀ j, pool'.IsFree j ↔ pool.IsFree j ∧ j ≠ index) ∧
      Shape capacity pool' ∧ pool'.bufferSize = pool.bufferSize ∧
      pool'.provisions =
        pool.provisions.modify index fun p => p.ensureBuffers pool.bufferSize := by
  rw [borrow, List.range_eq_range'] at h
  obtain ⟨hleast, hfree, hbits, hpool⟩ :=
    borrowFrom_ok (by rw [Nat.zero_add, hs.shape.length_bitmask]) (fun _ _ => by omega) h
  refine ⟨hleast, hfree, ⟨?_, ?_, ?_, ?_⟩, ?_, ?_⟩
  · rw [hpool]
    exact hs.shape.capacity_eq
  · rw [hpool]
    exact hs.shape.numWords_eq
  · rw [hbits, hs.shape.length_bitmask, hpool]
  · rw [hpool]
    exact (List.length_modify ..).trans hs.shape.length_provisions
  · rw [hpool]
  · rw [hpool]

theorem Sound.borrow_error (hs : Sound capacity pool borrowed) (h : pool.borrow = (.error e, pool')) :
    pool' = pool ∧ ∀ i < capacity, i ∈ borrowed := by
  rw [borrow, List.range_eq_range'] at h
  obtain ⟨hpool, hnone⟩ := borrowFrom_error h
  refine ⟨hpool, fun i hi => ?_⟩
  by_contra hfree
  have hwords := hs.shape.numWords_eq
  exact hnone i (by omega) (by omega) ((hs.isFree i).mpr ⟨hi, hfree⟩)

theorem Sound.release_borrowed (hs : Sound capacity pool borrowed) (h : index ∈ borrowed) (j : Nat) :
    (pool.release index).IsFree j ↔ pool.IsFree j ∨ j = index := by
  have hlt := hs.below index h
  have hwords := hs.shape.numWords_eq
  have hlen := hs.shape.length_bitmask
  exact isFree_release (by omega) j

theorem Sound.availableCount_add (hs : Sound capacity pool borrowed) :
    pool.availableCount + borrowed.card = capacity := by
  have hsum : pool.availableCount = Nat.count pool.IsFree (pool.bitmask.length * 64) := by
    show _ = Nat.count (PackedBits.Mem pool.bitmask) _
    rw [← PackedBits.sum_cpop, availableCount, ← hs.shape.length_bitmask]
    congr 1
    refine List.ext_getElem (by simp) fun k hk _ => ?_
    simp only [List.length_map, List.length_range] at hk
    simp [hk]
  have hset : (Finset.range (pool.bitmask.length * 64)).filter pool.IsFree =
      Finset.range capacity \ borrowed := by
    ext i
    have hwords := hs.shape.numWords_eq
    have hlen := hs.shape.length_bitmask
    rw [Finset.mem_filter, hs.isFree, Finset.mem_sdiff, Finset.mem_range, Finset.mem_range]
    constructor
    · rintro ⟨-, h⟩
      exact h
    · intro h
      exact ⟨by omega, h⟩
  have hsub : borrowed ⊆ Finset.range capacity := fun i hi => Finset.mem_range.mpr (hs.below i hi)
  have hcard := Finset.card_sdiff_add_card_eq_card hsub
  rw [hsum, Nat.count_eq_card_filter_range, hset, hcard, Finset.card_range]

end Sound

/-- **Every run keeps the bits right.** -/
theorem Reaches.sound {capacity bufferSize : Nat} {pool : ProvisionPool} {borrowed : Finset Nat}
    (h : Reaches capacity bufferSize pool borrowed) : Sound capacity pool borrowed := by
  induction h with
  | new =>
    refine ⟨shape_new capacity bufferSize, fun i => ?_, fun i hi => absurd hi (Finset.notMem_empty i)⟩
    rw [isFree_new]
    simp
  | @borrow pool pool' borrowed index _ hborrow hs =>
    obtain ⟨hleast, hfree, hshape, -⟩ := hs.borrow_ok hborrow
    have hindex : pool.IsFree index := hleast.1
    refine ⟨hshape, fun i => ?_, fun i hi => ?_⟩
    · rw [hfree, hs.isFree, Finset.mem_insert, not_or]
      tauto
    · rcases Finset.mem_insert.mp hi with rfl | hi
      · exact ((hs.isFree _).mp hindex).1
      · exact hs.below i hi
  | raised _ hborrow hs =>
    obtain ⟨rfl, -⟩ := hs.borrow_error hborrow
    exact hs
  | @release pool borrowed index _ hmem hs =>
    refine ⟨⟨hs.shape.capacity_eq, hs.shape.numWords_eq, ?_, hs.shape.length_provisions⟩, fun i => ?_,
      fun i hi => hs.below i (Finset.mem_of_mem_erase hi)⟩
    · exact List.length_set.trans hs.shape.length_bitmask
    · have hlt := hs.below index hmem
      rw [hs.release_borrowed hmem, hs.isFree, Finset.mem_erase]
      by_cases hi : i = index
      · subst hi
        simp [hlt]
      · simp [hi]

end ProvisionPool

open ProvisionPool in
/-- **The pool never hands out a slot twice.** Whatever run of borrows and releases led to it: a
borrow returns the lowest free slot below the capacity and clears its bit alone, raises exactly when
all are borrowed and then changes nothing, a release frees exactly its slot, and the count of the
free ones is what the borrowed ones leave. -/
theorem provision_pool_allocates {capacity bufferSize : Nat} {pool : ProvisionPool}
    {borrowed : Finset Nat} (h : ProvisionPool.Reaches capacity bufferSize pool borrowed) :
    (∀ i, pool.IsFree i ↔ i < capacity ∧ i ∉ borrowed) ∧
    (∀ index pool', pool.borrow = (.ok index, pool') →
      IsLeast {i | i < capacity ∧ i ∉ borrowed} index ∧
        ∀ i, pool'.IsFree i ↔ pool.IsFree i ∧ i ≠ index) ∧
    (∀ e pool', pool.borrow = (.error e, pool') → pool' = pool) ∧
    ((∃ e, pool.borrow.1 = .error e) ↔ ∀ i < capacity, i ∈ borrowed) ∧
    (∀ index ∈ borrowed, ∀ i, (pool.release index).IsFree i ↔ pool.IsFree i ∨ i = index) ∧
    pool.availableCount + borrowed.card = capacity := by
  have hs := h.sound
  have hset : {i | pool.IsFree i} = {i | i < capacity ∧ i ∉ borrowed} := Set.ext hs.isFree
  refine ⟨hs.isFree, fun index pool' hb => ?_, fun e pool' hb => (hs.borrow_error hb).1, ?_,
    fun index hi => hs.release_borrowed hi, hs.availableCount_add⟩
  · obtain ⟨hleast, hfree, -⟩ := hs.borrow_ok hb
    rw [← hset]
    exact ⟨hleast, hfree⟩
  · cases hborrow : pool.borrow with
    | mk result pool' =>
      cases result with
      | ok index =>
        have hfree := (hs.isFree index).mp (hs.borrow_ok hborrow).1.1
        constructor
        · rintro ⟨e, he⟩
          cases he
        · intro hall
          exact absurd (hall index hfree.1) hfree.2
      | error e => exact ⟨fun _ => (hs.borrow_error hborrow).2, fun _ => ⟨e, rfl⟩⟩

/-- A pool over two words, its first slot borrowed. -/
theorem provision_pool_allocates_one :
    (ProvisionPool.borrow (ProvisionPool.new 65 4).borrow.2).1 = .ok 1 ∧
      (ProvisionPool.new 65 4).borrow.2.availableCount + 1 = 65 :=
  ⟨by decide,
    (provision_pool_allocates (.borrow .new (show (ProvisionPool.new 65 4).borrow = (.ok 0, _) from
      by decide))).2.2.2.2.2⟩

end MojoHttp
