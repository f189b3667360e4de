import Mathlib.Data.List.Basic

/-!
# UTF-8 (RFC 3629 §4)

The well-formed sequences, as the syntax of the standard gives them, and the texts that are
concatenations of such sequences.

* **`Sequence`** — one character.
* **`sequence_iff`** — the sequences are what the Unicode scalar values encode to.
* **`octets_ascii`**, **`octets_lead`** — what the first byte of a text asks of those behind it.
-/

namespace Rfc3629

/-- `%xLO-HI` -/
def Within (lo hi b : UInt8) : Prop := lo ≤ b ∧ b ≤ hi

instance (lo hi b : UInt8) : Decidable (Within lo hi b) := inferInstanceAs (Decidable (_ ∧ _))

/-- `UTF8-tail = %x80-BF` -/
def IsTail (b : UInt8) : Prop := Within 0x80 0xBF b

instance (b : UInt8) : Decidable (IsTail b) := inferInstanceAs (Decidable (Within _ _ _))

/-- An alternative of the syntax with more than one byte: the first bytes, the second bytes, and how
many tails stand behind. -/
structure Alternative where
  first : UInt8 × UInt8
  second : UInt8 × UInt8
  tails : Nat
  deriving Repr, DecidableEq

def alternatives : List Alternative :=
  [⟨(0xC2, 0xDF), (0x80, 0xBF), 0⟩, -- UTF8-2 = %xC2-DF UTF8-tail
    ⟨(0xE0, 0xE0), (0xA0, 0xBF), 1⟩, -- UTF8-3 = %xE0 %xA0-BF UTF8-tail
    ⟨(0xE1, 0xEC), (0x80, 0xBF), 1⟩, -- / %xE1-EC 2( UTF8-tail )
    ⟨(0xED, 0xED), (0x80, 0x9F), 1⟩, -- / %xED %x80-9F UTF8-tail
    ⟨(0xEE, 0xEF), (0x80, 0xBF), 1⟩, -- / %xEE-EF 2( UTF8-tail )
    ⟨(0xF0, 0xF0), (0x90, 0xBF), 2⟩, -- UTF8-4 = %xF0 %x90-BF 2( UTF8-tail )
    ⟨(0xF1, 0xF3), (0x80, 0xBF), 2⟩, -- / %xF1-F3 3( UTF8-tail )
    ⟨(0xF4, 0xF4), (0x80, 0x8F), 2⟩] -- / %xF4 %x80-8F 2( UTF8-tail )

/-- `UTF8-char` -/
inductive Sequence : List UInt8 → Prop
  /-- `UTF8-1 = %x00-7F` -/
  | one {a : UInt8} : a ≤ 0x7F → Sequence [a]
  | more {r : Alternative} {a b : UInt8} {ts : List UInt8} :
    r ∈ alternatives → Within r.first.1 r.first.2 a → Within r.second.1 r.second.2 b →
    ts.length = r.tails → (∀ t ∈ ts, IsTail t) → Sequence (a :: b :: ts)

/-- `UTF8-octets = *( UTF8-char )` -/
def Octets (l : List UInt8) : Prop := ∃ cs : List (List UInt8), (∀ c ∈ cs, Sequence c) ∧ cs.flatten = l

/-! ## Scalar values -/

/-- A sequence of two bytes or more, by its bytes as numbers. -/
theorem Sequence.of_toNat {r : Alternative} {a b : UInt8} {ts : List UInt8} (hr : r ∈ alternatives)
    (ha : r.first.1.toNat ≤ a.toNat ∧ a.toNat ≤ r.first.2.toNat)
    (hb : r.second.1.toNat ≤ b.toNat ∧ b.toNat ≤ r.second.2.toNat) (hlen : ts.length = r.tails)
    (hts : ∀ t ∈ ts, 0x80 ≤ t.toNat ∧ t.toNat ≤ 0xBF) : Sequence (a :: b :: ts) :=
  .more hr ha hb hlen hts

theorem toNat_ofNat_lt {n : Nat} (h : n < 256) : (UInt8.ofNat n).toNat = n := by
  rw [UInt8.toNat_ofNat', Nat.mod_eq_of_lt h]

theorem ofNat_eq {n : Nat} {b : UInt8} (h : n = b.toNat) : UInt8.ofNat n = b := by
  rw [h, UInt8.ofNat_toNat]

/-- The bytes of a scalar value are a sequence. -/
theorem sequence_utf8EncodeChar (c : Char) : Sequence (String.utf8EncodeChar c) := by
  have hvalid := c.valid
  rw [UInt32.isValidChar, Nat.isValidChar] at hvalid
  unfold String.utf8EncodeChar
  generalize c.val.toNat = v at hvalid
  dsimp only
  have htail : ∀ n, 0x80 ≤ (UInt8.ofNat (n % 0x40 + 0x80)).toNat ∧
      (UInt8.ofNat (n % 0x40 + 0x80)).toNat ≤ 0xBF := by
    intro n
    rw [toNat_ofNat_lt (by omega)]
    omega
  split
  · refine .one (UInt8.le_iff_toNat_le.mpr ?_)
    rw [toNat_ofNat_lt (by omega)]
    assumption
  · split
    · refine .of_toNat (r := ⟨(0xC2, 0xDF), (0x80, 0xBF), 0⟩) (by decide) ?_ (htail v) rfl (by simp)
      rw [toNat_ofNat_lt (by omega)]
      simp
      omega
    · split
      -- three bytes: the first says which second bytes there are
      · have hts : ∀ t ∈ [UInt8.ofNat (v % 0x40 + 0x80)], 0x80 ≤ t.toNat ∧ t.toNat ≤ 0xBF := by
          intro t ht
          rw [List.mem_singleton.mp ht]
          exact htail v
        have hfirst : (UInt8.ofNat (v / 4096 % 0x10 + 0xE0)).toNat = v / 4096 % 0x10 + 0xE0 :=
          toNat_ofNat_lt (by omega)
        have hsecond : (UInt8.ofNat (v / 64 % 0x40 + 0x80)).toNat = v / 64 % 0x40 + 0x80 :=
          toNat_ofNat_lt (by omega)
        rcases (by omega : v / 4096 = 0 ∨ (1 ≤ v / 4096 ∧ v / 4096 ≤ 12) ∨ v / 4096 = 13 ∨
          (14 ≤ v / 4096 ∧ v / 4096 ≤ 15)) with h | h | h | h
        · refine .of_toNat (r := ⟨(0xE0, 0xE0), (0xA0, 0xBF), 1⟩) (by decide) ?_ ?_ rfl hts
          all_goals
            rw [‹(UInt8.ofNat _).toNat = _›]
            simp
            omega
        · refine .of_toNat (r := ⟨(0xE1, 0xEC), (0x80, 0xBF), 1⟩) (by decide) ?_ (htail _) rfl hts
          rw [hfirst]
          simp
          omega
        · refine .of_toNat (r := ⟨(0xED, 0xED), (0x80, 0x9F), 1⟩) (by decide) ?_ ?_ rfl hts
          · rw [hfirst]
            simp
            omega
          · rw [hsecond]
            simp
            omega
        · refine .of_toNat (r := ⟨(0xEE, 0xEF), (0x80, 0xBF), 1⟩) (by decide) ?_ (htail _) rfl hts
          rw [hfirst]
          simp
          omega
      · have hts : ∀ t ∈ [UInt8.ofNat (v / 64 % 0x40 + 0x80), UInt8.ofNat (v % 0x40 + 0x80)],
            0x80 ≤ t.toNat ∧ t.toNat ≤ 0xBF := by
          intro t ht
          rcases List.mem_pair.mp ht with rfl | rfl
          · exact htail _
          · exact htail v
        have hfirst : (UInt8.ofNat (v / 262144 % 0x08 + 0xF0)).toNat = v / 262144 % 0x08 + 0xF0 :=
          toNat_ofNat_lt (by omega)
        have hsecond : (UInt8.ofNat (v / 4096 % 0x40 + 0x80)).toNat = v / 4096 % 0x40 + 0x80 :=
          toNat_ofNat_lt (by omega)
        rcases (by omega : v / 262144 = 0 ∨ (1 ≤ v / 262144 ∧ v / 262144 ≤ 3) ∨ v / 262144 = 4) with
          h | h | h
        · refine .of_toNat (r := ⟨(0xF0, 0xF0), (0x90, 0xBF), 2⟩) (by decide) ?_ ?_ rfl hts
          · rw [hfirst]
            simp
            omega
          · rw [hsecond]
            simp
            omega
        · refine .of_toNat (r := ⟨(0xF1, 0xF3), (0x80, 0xBF), 2⟩) (by decide) ?_ (htail _) rfl hts
          rw [hfirst]
          simp
          omega
        · refine .of_toNat (r := ⟨(0xF4, 0xF4), (0x80, 0x8F), 2⟩) (by decide) ?_ ?_ rfl hts
          · rw [hfirst]
            simp
            omega
          · rw [hsecond]
            simp
            omega

/-- A scalar value, by its number. -/
theorem exists_char {v : Nat} (h : v.isValidChar) : ∃ c : Char, c.val.toNat = v :=
  ⟨Char.ofNat v, by rw [Char.ofNat, dif_pos h]; rfl⟩

section Decode

variable {a b c d : UInt8}

theorem exists_char_two (ha : 0xC2 ≤ a.toNat ∧ a.toNat ≤ 0xDF) (hb : 0x80 ≤ b.toNat ∧ b.toNat ≤ 0xBF) :
    ∃ ch : Char, [a, b] = String.utf8EncodeChar ch := by
  obtain ⟨ch, hch⟩ : ∃ ch : Char, ch.val.toNat = (a.toNat - 0xC0) * 64 + (b.toNat - 0x80) :=
    exists_char (.inl (by omega))
  refine ⟨ch, ?_⟩
  unfold String.utf8EncodeChar
  dsimp only
  rw [hch, if_neg (by omega), if_pos (by omega), ofNat_eq (b := a) (by omega), ofNat_eq (b := b) (by omega)]

theorem exists_char_three (ha : 0xE0 ≤ a.toNat ∧ a.toNat ≤ 0xEF) (hb : 0x80 ≤ b.toNat ∧ b.toNat ≤ 0xBF)
    (hc : 0x80 ≤ c.toNat ∧ c.toNat ≤ 0xBF) (hlong : a.toNat = 0xE0 → 0xA0 ≤ b.toNat)
    (hsurrogate : a.toNat = 0xED → b.toNat ≤ 0x9F) :
    ∃ ch : Char, [a, b, c] = String.utf8EncodeChar ch := by
  obtain ⟨ch, hch⟩ : ∃ ch : Char, ch.val.toNat =
      (a.toNat - 0xE0) * 4096 + (b.toNat - 0x80) * 64 + (c.toNat - 0x80) :=
    exists_char (by rw [Nat.isValidChar]; omega)
  refine ⟨ch, ?_⟩
  unfold String.utf8EncodeChar
  dsimp only
  rw [hch, if_neg (by omega), if_neg (by omega), if_pos (by omega), ofNat_eq (b := a) (by omega),
    ofNat_eq (b := b) (by omega), ofNat_eq (b := c) (by omega)]

theorem exists_char_four (ha : 0xF0 ≤ a.toNat ∧ a.toNat ≤ 0xF4) (hb : 0x80 ≤ b.toNat ∧ b.toNat ≤ 0xBF)
    (hc : 0x80 ≤ c.toNat ∧ c.toNat ≤ 0xBF) (hd : 0x80 ≤ d.toNat ∧ d.toNat ≤ 0xBF)
    (hlong : a.toNat = 0xF0 → 0x90 ≤ b.toNat) (hbeyond : a.toNat = 0xF4 → b.toNat ≤ 0x8F) :
    ∃ ch : Char, [a, b, c, d] = String.utf8EncodeChar ch := by
  obtain ⟨ch, hch⟩ : ∃ ch : Char, ch.val.toNat =
      (a.toNat - 0xF0) * 262144 + (b.toNat - 0x80) * 4096 + (c.toNat - 0x80) * 64 + (d.toNat - 0x80) :=
    exists_char (.inr (by omega))
  refine ⟨ch, ?_⟩
  unfold String.utf8EncodeChar
  dsimp only
  rw [hch, if_neg (by omega), if_neg (by omega), if_neg (by omega), ofNat_eq (b := a) (by omega),
    ofNat_eq (b := b) (by omega), ofNat_eq (b := c) (by omega), ofNat_eq (b := d) (by omega)]

end Decode

/-- **The well-formed sequences are what the scalar values encode to**: none is overlong, none is a
surrogate's, none is beyond U+10FFFF. -/
theorem sequence_iff {l : List UInt8} : Sequence l ↔ ∃ ch : Char, l = String.utf8EncodeChar ch := by
  constructor
  · rintro (ha | ⟨hr, ha, hb, hlen, hts⟩)
    · rename_i a
      have ha := UInt8.le_iff_toNat_le.mp ha
      obtain ⟨ch, hch⟩ := exists_char (v := a.toNat) (.inl (by simp at ha; omega))
      refine ⟨ch, ?_⟩
      unfold String.utf8EncodeChar
      dsimp only
      rw [hch, if_pos (by simpa using ha), UInt8.ofNat_toNat]
    · rename_i r a b ts
      obtain ⟨ha, ha'⟩ := ha
      obtain ⟨hb, hb'⟩ := hb
      rw [UInt8.le_iff_toNat_le] at ha ha' hb hb'
      have hts : ∀ t ∈ ts, 0x80 ≤ t.toNat ∧ t.toNat ≤ 0xBF := hts
      simp only [alternatives, List.mem_cons, List.not_mem_nil, or_false] at hr
      rcases hr with rfl | rfl | rfl | rfl | rfl | rfl | rfl | rfl
      all_goals simp only [UInt8.reduceToNat] at ha ha' hb hb'
      · obtain rfl := List.length_eq_zero_iff.mp hlen
        exact exists_char_two (by omega) (by omega)
      · obtain ⟨c, rfl⟩ := List.length_eq_one_iff.mp hlen
        exact exists_char_three (by omega) (by omega) (hts c (by simp)) (by omega) (by omega)
      · obtain ⟨c, rfl⟩ := List.length_eq_one_iff.mp hlen
        exact exists_char_three (by omega) (by omega) (hts c (by simp)) (by omega) (by omega)
      · obtain ⟨c, rfl⟩ := List.length_eq_one_iff.mp hlen
        exact exists_char_three (by omega) (by omega) (hts c (by simp)) (by omega) (by omega)
      · obtain ⟨c, rfl⟩ := List.length_eq_one_iff.mp hlen
        exact exists_char_three (by omega) (by omega) (hts c (by simp)) (by omega) (by omega)
      · obtain ⟨c, d, rfl⟩ := List.length_eq_two.mp hlen
        exact exists_char_four (by omega) (by omega) (hts c (by simp)) (hts d (by simp)) (by omega) (by omega)
      · obtain ⟨c, d, rfl⟩ := List.length_eq_two.mp hlen
        exact exists_char_four (by omega) (by omega) (hts c (by simp)) (hts d (by simp)) (by omega) (by omega)
      · obtain ⟨c, d, rfl⟩ := List.length_eq_two.mp hlen
        exact exists_char_four (by omega) (by omega) (hts c (by simp)) (hts d (by simp)) (by omega) (by omega)
  · rintro ⟨ch, rfl⟩
    exact sequence_utf8EncodeChar ch

/-- The texts of UTF-8 are the encodings of the lists of scalar values. -/
theorem octets_iff {l : List UInt8} : Octets l ↔ ∃ cs : List Char, l = cs.flatMap String.utf8EncodeChar := by
  constructor
  · rintro ⟨seqs, hseqs, rfl⟩
    induction seqs with
    | nil => exact ⟨[], rfl⟩
    | cons c seqs ih =>
      obtain ⟨cs, hcs⟩ := ih fun c hc => hseqs c (List.mem_cons_of_mem _ hc)
      obtain ⟨ch, hch⟩ := sequence_iff.mp (hseqs c List.mem_cons_self)
      exact ⟨ch :: cs, by rw [List.flatten_cons, hcs, hch, List.flatMap_cons]⟩
  · rintro ⟨cs, rfl⟩
    refine ⟨cs.map String.utf8EncodeChar, fun c hc => ?_, rfl⟩
    obtain ⟨ch, -, rfl⟩ := List.mem_map.mp hc
    exact sequence_utf8EncodeChar ch

/-! ## By the first byte -/

theorem octets_nil : Octets [] := ⟨[], by simp, rfl⟩

theorem Octets.cons {c l : List UInt8} (hc : Sequence c) (hl : Octets l) : Octets (c ++ l) := by
  obtain ⟨cs, hcs, rfl⟩ := hl
  refine ⟨c :: cs, ?_, List.flatten_cons⟩
  intro x hx
  rcases List.mem_cons.mp hx with rfl | hx
  · exact hc
  · exact hcs x hx

/-- A text that is not empty starts with a sequence. -/
theorem Octets.uncons {a : UInt8} {l : List UInt8} (h : Octets (a :: l)) :
    ∃ c rest, Sequence c ∧ Octets rest ∧ a :: l = c ++ rest := by
  obtain ⟨cs, hcs, hl⟩ := h
  cases cs with
  | nil => cases hl
  | cons c cs =>
    exact ⟨c, cs.flatten, hcs c List.mem_cons_self,
      ⟨cs, fun x hx => hcs x (List.mem_cons_of_mem c hx), rfl⟩, hl.symm⟩

theorem le_first {r : Alternative} {a : UInt8} (hr : r ∈ alternatives)
    (ha : Within r.first.1 r.first.2 a) : 0xC2 ≤ a := by
  have hall : ∀ r ∈ alternatives, (0xC2 : UInt8) ≤ r.first.1 := by decide
  exact UInt8.le_trans (hall r hr) ha.1

/-- **A byte of ASCII** asks nothing of what stands behind it. -/
theorem octets_ascii {a : UInt8} {l : List UInt8} (ha : a ≤ 0x7F) : Octets (a :: l) ↔ Octets l := by
  constructor
  · intro h
    obtain ⟨c, rest, hc, hrest, hl⟩ := h.uncons
    cases hc with
    | one _ =>
      cases hl
      exact hrest
    | more hr hfirst _ _ _ =>
      cases hl
      exact absurd (UInt8.le_trans (le_first hr hfirst) ha) (by decide)
  · exact Octets.cons (.one ha)

/-- **A byte of none of the alternatives** starts no text. -/
theorem not_octets {a : UInt8} {l : List UInt8} (ha : ¬ a ≤ 0x7F)
    (hnone : ∀ r ∈ alternatives, ¬ Within r.first.1 r.first.2 a) : ¬ Octets (a :: l) := by
  intro h
  obtain ⟨c, rest, hc, -, hl⟩ := h.uncons
  cases hc with
  | one hone =>
    cases hl
    exact ha hone
  | more hr hfirst _ _ _ =>
    cases hl
    exact hnone _ hr hfirst

/-- **The first byte of an alternative** asks for its second byte and its tails. -/
theorem octets_lead {r : Alternative} {a : UInt8} {l : List UInt8}
    (hr : r ∈ alternatives) (ha : Within r.first.1 r.first.2 a)
    (hone : ∀ r' ∈ alternatives, Within r'.first.1 r'.first.2 a → r' = r) :
    Octets (a :: l) ↔ r.tails < l.length ∧ (∃ b ∈ l.head?, Within r.second.1 r.second.2 b) ∧
      (∀ t ∈ (l.drop 1).take r.tails, IsTail t) ∧ Octets (l.drop (r.tails + 1)) := by
  constructor
  · intro h
    obtain ⟨c, rest, hc, hrest, hl⟩ := h.uncons
    cases hc with
    | one hascii =>
      cases hl
      exact absurd (UInt8.le_trans (le_first hr ha) hascii) (by decide)
    | @more r' a' b ts hr' hfirst hb hlen hts =>
      obtain ⟨rfl, rfl⟩ : a = a' ∧ l = b :: (ts ++ rest) := List.cons.inj hl
      obtain rfl := hone r' hr' hfirst
      refine ⟨?_, ⟨b, rfl, hb⟩, ?_, ?_⟩
      · simp
        omega
      · rw [List.drop_one, List.tail_cons, ← hlen, List.take_left]
        exact hts
      · rw [List.drop_succ_cons, ← hlen, List.drop_left]
        exact hrest
  · rintro ⟨hlen, ⟨b, hb, hwithin⟩, htails, hrest⟩
    obtain ⟨l, rfl⟩ := List.head?_eq_some_iff.mp hb
    rw [List.drop_one, List.tail_cons] at htails
    rw [List.drop_succ_cons] at hrest
    have hseq : Sequence (a :: b :: l.take r.tails) := by
      refine .more hr ha hwithin ?_ htails
      rw [List.length_take]
      simp at hlen
      omega
    have htext := hrest.cons hseq
    rwa [List.cons_append, List.cons_append, List.take_append_drop] at htext

end Rfc3629
