import Mathlib.Data.Nat.Count
import Mathlib.Algebra.BigOperators.Intervals

/-!
# Sets of numbers packed in words

A list of words as a set of small numbers: word `i / w` holds the number `i`, at its bit `i % w`
counted from the most significant one.

* **`mem_setBit`**, **`mem_clearBit`** — a bit set or cleared adds or removes its one number.
* **`getMsbD_clz`**, **`getMsbD_of_lt_clz`** — the leading zeros of a word end at its least number.
* **`sum_cpop`** — the population counts of the words add up to the numbers held.
-/

namespace PackedBits

variable {w : Nat}

/-- The number `i` is held. -/
def Mem (words : List (BitVec w)) (i : Nat) : Prop := (words.getD (i / w) 0).getMsbD (i % w) = true

instance (words : List (BitVec w)) : DecidablePred (Mem words) := fun _ => inferInstanceAs (Decidable (_ = _))

/-- The word with nothing but the bit `k`. -/
def bit (w k : Nat) : BitVec w := 1#w <<< (w - 1 - k)

theorem getMsbD_bit {k : Nat} (hk : k < w) (j : Nat) : (bit w k).getMsbD j = decide (j = k) := by
  rw [bit, BitVec.getMsbD_shiftLeft, BitVec.getMsbD_eq_getLsbD, BitVec.getLsbD_one]
  by_cases hjk : j = k
  · subst hjk
    have hlt : j + (w - 1 - j) < w := by omega
    have hend : w - 1 - (j + (w - 1 - j)) = 0 := by omega
    simp [hlt, hend, show 0 < w by omega]
  · by_cases hlt : j + (w - 1 - k) < w
    · have hne : ¬ w - 1 - (j + (w - 1 - k)) = 0 := by omega
      simp [hne, hjk]
    · simp [hlt, hjk]

/-! ## One word -/

/-- The bit behind a word's leading zeros is set. -/
theorem getMsbD_clz {x : BitVec w} (hx : x ≠ 0#w) : x.clz.toNat < w ∧ x.getMsbD x.clz.toNat = true := by
  have hw : 0 < w := by
    refine Nat.pos_of_ne_zero fun h0 => hx ?_
    subst h0
    exact BitVec.of_length_zero
  have hlt : x.clz.toNat < w := by
    have h := BitVec.lt_def.mp (BitVec.clz_lt_iff_ne_zero.mpr hx)
    rwa [BitVec.natCast_eq_ofNat, BitVec.toNat_ofNat, Nat.mod_eq_of_lt Nat.lt_two_pow_self] at h
  refine ⟨hlt, ?_⟩
  rw [BitVec.getMsbD_eq_getLsbD, BitVec.getLsbD_true_clz_of_ne_zero hw hx]
  simp [hlt]

/-- The bits in front of it are not. -/
theorem getMsbD_of_lt_clz {x : BitVec w} {j : Nat} (hj : j < x.clz.toNat) : x.getMsbD j = false := by
  rw [BitVec.getMsbD_eq_getLsbD, Bool.and_eq_false_imp]
  intro hjw
  have hjw : j < w := of_decide_eq_true hjw
  have hlow : x.toNat < 2 ^ (w - 1 - j) :=
    BitVec.toNat_lt_two_pow_sub_clz.trans_le (Nat.pow_le_pow_right (by decide) (by omega))
  exact Nat.testBit_lt_two_pow hlow

/-- A word that is no zero holds something. -/
theorem eq_zero_iff {x : BitVec w} : x = 0#w ↔ ∀ j < w, x.getMsbD j = false := by
  constructor
  · rintro rfl j _
    exact BitVec.getMsbD_zero
  · intro h
    by_contra hx
    obtain ⟨hlt, hset⟩ := getMsbD_clz hx
    rw [h _ hlt] at hset
    cases hset

/-- The set bits of a word, counted from either end. -/
theorem toNat_cpop_eq_count (x : BitVec w) :
    x.cpop.toNat = Nat.count (fun j => x.getMsbD j = true) w := by
  have hcount : ∀ (y : BitVec w) (n : Nat),
      y.cpopNatRec n 0 = Nat.count (fun j => y.getLsbD j = true) n := by
    intro y n
    induction n with
    | zero => rfl
    | succ n ih =>
      rw [BitVec.cpopNatRec_succ, BitVec.cpopNatRec_eq, ih, Nat.zero_add, Nat.count_succ]
      cases y.getLsbD n <;> rfl
  rw [← BitVec.cpop_reverse, BitVec.toNat_cpop, hcount]
  simp only [BitVec.getLsbD_reverse]

/-! ## The words as one set -/

/-- `f` at word `i / w`, the others as they are. -/
theorem getD_set (words : List (BitVec w)) (k j : Nat) (x : BitVec w) :
    (words.set k x).getD j 0 = if j = k ∧ k < words.length then x else words.getD j 0 := by
  rw [List.getD_eq_getElem?_getD, List.getD_eq_getElem?_getD, List.getElem?_set]
  by_cases hk : k = j
  · subst hk
    by_cases hlt : k < words.length
    · simp [hlt]
    · simp [hlt]
  · rw [if_neg hk, if_neg (fun h => hk h.1.symm)]

variable {words : List (BitVec w)} {k b : Nat}

/-- The numbers of word `k` are those from `k * w` on. -/
theorem mem_of_word (hb : b < w) : Mem words (k * w + b) ↔ (words.getD k 0).getMsbD b = true := by
  have hdiv : (k * w + b) / w = k := by
    rw [Nat.add_comm, Nat.add_mul_div_right b k (by omega), Nat.div_eq_of_lt hb, Nat.zero_add]
  have hmod : (k * w + b) % w = b := by
    rw [Nat.add_comm, Nat.add_mul_mod_self_right, Nat.mod_eq_of_lt hb]
  rw [Mem, hdiv, hmod]

/-- Every number is the one of its word and its bit. -/
theorem eq_of_word (hb : b < w) (i : Nat) : i = k * w + b ↔ i / w = k ∧ i % w = b := by
  have hdecomp := Nat.div_add_mod' i w
  constructor
  · rintro rfl
    rw [Nat.add_comm, Nat.add_mul_div_right b k (by omega), Nat.div_eq_of_lt hb, Nat.zero_add,
      Nat.add_mul_mod_self_right, Nat.mod_eq_of_lt hb]
    exact ⟨rfl, rfl⟩
  · rintro ⟨rfl, rfl⟩
    exact hdecomp.symm

/-- **A bit set adds its number.** -/
theorem mem_setBit (hk : k < words.length) (hb : b < w) (i : Nat) :
    Mem (words.set k (words.getD k 0 ||| bit w b)) i ↔ Mem words i ∨ i = k * w + b := by
  rw [eq_of_word hb, Mem, getD_set]
  by_cases hi : i / w = k
  · rw [if_pos ⟨hi, hk⟩, BitVec.getMsbD_or, getMsbD_bit hb, Mem, hi]
    simp
  · rw [if_neg fun h => hi h.1]
    simp [Mem, hi]

/-- **A bit cleared removes its number.** -/
theorem mem_clearBit (hk : k < words.length) (hb : b < w) (i : Nat) :
    Mem (words.set k (words.getD k 0 &&& ~~~ bit w b)) i ↔ Mem words i ∧ i ≠ k * w + b := by
  have hmod : i % w < w := Nat.mod_lt i (by omega)
  rw [Ne, eq_of_word hb, Mem, getD_set]
  by_cases hi : i / w = k
  · rw [if_pos ⟨hi, hk⟩, BitVec.getMsbD_and, BitVec.getMsbD_not, getMsbD_bit hb, Mem, hi]
    simp [hmod]
  · rw [if_neg fun h => hi h.1]
    simp [Mem, hi]

/-- **The population counts of the words add up to the numbers held.** -/
theorem sum_cpop (words : List (BitVec w)) :
    (words.map fun x => x.cpop.toNat).sum = Nat.count (Mem words) (words.length * w) := by
  rcases Nat.eq_zero_or_pos w with hw | hw
  · subst hw
    simp only [Nat.mul_zero, Nat.count_zero]
    refine List.sum_eq_zero fun n hn => ?_
    obtain ⟨x, -, rfl⟩ := List.mem_map.mp hn
    exact Nat.le_zero.mp (BitVec.toNat_cpop_le x)
  -- on the words: those behind the first hold the numbers from `w` on
  · induction words with
    | nil => simp
    | cons x words ih =>
      have hhead : ∀ j < w, (Mem (x :: words) j ↔ x.getMsbD j = true) := by
        intro j hj
        rw [Mem, Nat.div_eq_of_lt hj, Nat.mod_eq_of_lt hj]
        rfl
      have htail : ∀ j, Mem (x :: words) (w + j) ↔ Mem words j := by
        intro j
        rw [Mem, Nat.add_div_left j hw, Nat.add_mod_left]
        rfl
      rw [List.map_cons, List.sum_cons, ih, toNat_cpop_eq_count, List.length_cons, Nat.succ_mul,
        Nat.add_comm (words.length * w), Nat.count_add]
      congr 1
      · rw [Nat.count_eq_card_filter_range, Nat.count_eq_card_filter_range]
        congr 1
        refine Finset.filter_congr fun j hj => ?_
        exact (hhead j (Finset.mem_range.mp hj)).symm
      · exact congrArg (fun p : Nat → Bool => List.countP p (List.range (words.length * w)))
          (funext fun j => (decide_eq_decide.mpr (htail j)).symm)

end PackedBits
