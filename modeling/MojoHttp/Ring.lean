import MojoHttp.Lib.Threads
import Mathlib.Data.Nat.Bitwise

/-!
# The bounded ring (`ring.mojo`)

A bounded queue of integers many threads push to and pop from at once. A cell carries a sequence
number that says whose turn it is: a producer's when it equals the cell's position, a consumer's
when it is one past it.

* **`Ring.Size`** — a capacity is a power of two, so that a position's cell is a mask away.
* **`Ring.advance`** — the calls, one atomic access a step.
* **`Ring.system`** — any number of threads in any interleaving, with the values pushed in the
  order the tail moved over them and the values popped in the order the head did.

An enabled ring: a disabled one (`base == 0`) returns before it touches any memory. The counters
are unbounded.
-/

namespace MojoHttp

open Threads (Next Program)

/-- The memory of a ring: the two counters, and each cell's sequence word and value. -/
structure Ring where
  head : Nat
  tail : Nat
  seq : Nat → Nat
  val : Nat → Int

namespace Ring

/-! ## The size -/

/-- `while cap < capacity: cap *= 2`. -/
def roundUp (capacity : Int) : (fuel cap : Nat) → Nat
  | 0, cap => cap
  | fuel + 1, cap => if (cap : Int) < capacity then roundUp capacity fuel (cap * 2) else cap

theorem roundUp_pow (capacity : Int) (fuel : Nat) {k : Nat} (hk : 1 ≤ k) :
    ∃ n, 1 ≤ n ∧ roundUp capacity fuel (2 ^ k) = 2 ^ n := by
  induction fuel generalizing k with
  | zero => exact ⟨k, hk, rfl⟩
  | succ fuel ih =>
    rw [roundUp]
    split
    · rw [← Nat.pow_succ]
      exact ih (by omega)
    · exact ⟨k, hk, rfl⟩

/-- The fuel is enough: the rounded capacity is no less than the one asked for. -/
theorem le_roundUp {capacity : Int} {fuel cap : Nat} (h : capacity ≤ cap + fuel) (hcap : 1 ≤ cap) :
    capacity ≤ roundUp capacity fuel cap := by
  induction fuel generalizing cap with
  | zero => simpa [roundUp] using h
  | succ fuel ih =>
    rw [roundUp]
    split
    · exact ih (by omega) (by omega)
    · omega

/-- The index mask of a ring: one less than a power of two that is at least two. -/
structure Size where
  mask : Nat
  pow : ∃ k, 1 ≤ k ∧ mask + 1 = 2 ^ k

namespace Size

/-- The size `Ring(capacity)` builds. -/
def ofCapacity (capacity : Int) : Size where
  mask := roundUp capacity capacity.toNat 2 - 1
  pow := by
    obtain ⟨n, hn, heq⟩ := roundUp_pow capacity capacity.toNat (le_refl 1)
    exact ⟨n, hn, by rw [show (2 : Nat) = 2 ^ 1 from rfl, heq]; exact Nat.sub_add_cancel Nat.one_le_two_pow⟩

/-- `capacity`. -/
def capacity (z : Size) : Nat := z.mask + 1

/-- The cell of a position: `pos & mask`. -/
def cell (z : Size) (pos : Nat) : Nat := pos &&& z.mask

theorem two_le_capacity (z : Size) : 2 ≤ z.capacity := by
  obtain ⟨k, hk, h⟩ := z.pow
  calc 2 = 2 ^ 1 := rfl
    _ ≤ 2 ^ k := Nat.pow_le_pow_right (by decide) hk
    _ = z.capacity := h.symm

theorem le_capacity_ofCapacity (capacity : Int) : capacity ≤ (ofCapacity capacity).capacity := by
  have hle : capacity ≤ roundUp capacity capacity.toNat 2 := le_roundUp (by omega) (by decide)
  have hmask : (ofCapacity capacity).mask = roundUp capacity capacity.toNat 2 - 1 := rfl
  unfold Size.capacity
  omega

theorem cell_eq_mod (z : Size) (pos : Nat) : z.cell pos = pos % z.capacity := by
  obtain ⟨k, -, h⟩ := z.pow
  have hmask : z.mask = 2 ^ k - 1 := by omega
  unfold cell capacity
  rw [h, hmask]
  exact Nat.and_two_pow_sub_one_eq_mod pos k

theorem cell_le (z : Size) (pos : Nat) : z.cell pos ≤ z.mask := Nat.and_le_right

theorem cell_add (z : Size) (pos : Nat) : z.cell (pos + z.capacity) = z.cell pos := by
  rw [cell_eq_mod, cell_eq_mod, Nat.add_mod_right]

/-- Positions of one cell less than the capacity apart are one. -/
theorem cell_inj (z : Size) {p q : Nat} (h : z.cell p = z.cell q) (hpq : p < q + z.capacity)
    (hqp : q < p + z.capacity) : p = q := by
  rw [cell_eq_mod, cell_eq_mod] at h
  have hone : ∀ {a b : Nat}, a ≤ b → a % z.capacity = b % z.capacity → b < a + z.capacity →
      a = b := by
    intro a b hab heq hlt
    have hmod : (b - a) % z.capacity = 0 := Nat.sub_mod_eq_zero_of_mod_eq heq.symm
    rw [Nat.mod_eq_of_lt (by omega)] at hmod
    omega
  rcases Nat.le_total p q with hle | hle
  · exact hone hle h hqp
  · exact (hone hle h.symm hpq).symm

end Size

/-! ## The calls -/

inductive Op where
  | push (value : Int)
  | pop
  | pops
  | peek
  | isEmpty
  deriving Repr, DecidableEq

/-- What a call returns. A pop or a peek that answers False leaves its `out` alone. -/
inductive Res where
  | pushed (ok : Bool)
  | popped (out : Option Int)
  | pops (count : Nat)
  | peeked (out : Option Int)
  | isEmpty (empty : Bool)
  deriving Repr, DecidableEq

/-- The atomic access a call is about to make. -/
inductive Pc where
  | pushLoad (value : Int)
  | pushSeq (value : Int) (pos : Nat)
  | pushExchange (value : Int) (pos : Nat)
  | pushWrite (value : Int) (pos : Nat)
  | pushPublish (value : Int) (pos : Nat)
  | popLoad
  | popSeq (pos : Nat)
  | popExchange (pos : Nat)
  | popRead (pos : Nat)
  | popRelease (pos : Nat) (out : Int)
  | popsLoad
  | peekLoad
  | peekSeq (pos : Nat)
  | peekRead (pos : Nat)
  | isEmptyLoad
  | isEmptySeq (pos : Nat)
  deriving Repr, DecidableEq

def Pc.start : Op → Pc
  | .push value => .pushLoad value
  | .pop => .popLoad
  | .pops => .popsLoad
  | .peek => .peekLoad
  | .isEmpty => .isEmptyLoad

/-- `push`, `pop`, `pops`, `peek` and `is_empty`. A failed `compare_exchange` leaves the counter's
value in `expected`, and the call goes on with it. -/
def advance (z : Size) (r : Ring) : Pc → Ring × Next Pc Res
  | .pushLoad value => (r, .goto (.pushSeq value r.tail))
  | .pushSeq value pos =>
    let dif : Int := r.seq (z.cell pos) - pos
    if dif = 0 then (r, .goto (.pushExchange value pos))
    else if dif < 0 then (r, .ret (.pushed false))
    else (r, .goto (.pushLoad value))
  | .pushExchange value pos =>
    if r.tail = pos then ({ r with tail := pos + 1 }, .goto (.pushWrite value pos))
    else (r, .goto (.pushSeq value r.tail))
  | .pushWrite value pos =>
    ({ r with val := Function.update r.val (z.cell pos) value }, .goto (.pushPublish value pos))
  | .pushPublish _ pos =>
    ({ r with seq := Function.update r.seq (z.cell pos) (pos + 1) }, .ret (.pushed true))
  | .popLoad => (r, .goto (.popSeq r.head))
  | .popSeq pos =>
    let dif : Int := r.seq (z.cell pos) - (pos + 1)
    if dif = 0 then (r, .goto (.popExchange pos))
    else if dif < 0 then (r, .ret (.popped none))
    else (r, .goto .popLoad)
  | .popExchange pos =>
    if r.head = pos then ({ r with head := pos + 1 }, .goto (.popRead pos))
    else (r, .goto (.popSeq r.head))
  | .popRead pos => (r, .goto (.popRelease pos (r.val (z.cell pos))))
  | .popRelease pos out =>
    ({ r with seq := Function.update r.seq (z.cell pos) (pos + z.mask + 1) },
      .ret (.popped (some out)))
  | .popsLoad => (r, .ret (.pops r.head))
  | .peekLoad => (r, .goto (.peekSeq r.head))
  | .peekSeq pos =>
    if r.seq (z.cell pos) ≠ pos + 1 then (r, .ret (.peeked none)) else (r, .goto (.peekRead pos))
  | .peekRead pos => (r, .ret (.peeked (some (r.val (z.cell pos)))))
  | .isEmptyLoad => (r, .goto (.isEmptySeq r.head))
  | .isEmptySeq pos => (r, .ret (.isEmpty (r.seq (z.cell pos) != pos + 1)))

/-! ## The system -/

/-- `Ring(capacity)`: cell `i` is free for position `i`. -/
def init : Ring := ⟨0, 0, fun i => i, fun _ => 0⟩

/-- The value the tail moves over at this access, if it does. -/
def tailMoves (r : Ring) : Pc → List Int
  | .pushExchange value pos => if r.tail = pos then [value] else []
  | _ => []

/-- The value the head moves over at this access, if it does. -/
def headMoves (z : Size) (r : Ring) : Pc → List Int
  | .popExchange pos => if r.head = pos then [r.val (z.cell pos)] else []
  | _ => []

/-- A ring with its history: the values pushed, in the order of the tail's moves, and the values
popped, in the order of the head's. No call reads it. -/
structure Traced where
  ring : Ring
  pushed : List Int
  popped : List Int

def program (z : Size) : Program Traced Pc Op Res where
  start := Pc.start
  advance m pc :=
    (⟨(m.ring.advance z pc).1, m.pushed ++ m.ring.tailMoves pc, m.popped ++ m.ring.headMoves z pc⟩,
      (m.ring.advance z pc).2)

/-- The threads `T` over a new ring. -/
abbrev system (T : Type) [DecidableEq T] (z : Size) := (program z).system T ⟨init, [], []⟩

end Ring

end MojoHttp
