import MojoHttp.WebSocket.Split
import MojoHttp.Lib.Rfc3629

/-!
# `is_valid_utf8` accepts exactly UTF-8

The check walks the text a character at a time, but passes over a run of ASCII as fast as it can:
64 bytes at once while no byte of a chunk has its high bit set, and then byte by byte.

* **`utf8Walk`** — the walk, with any way of passing over ASCII.
* **`utf8Walk_iff`** — it accepts the texts of UTF-8, whatever that way is.
* **`isValidUtf8_exact`** — so the check does, and the chunks change nothing.
-/

namespace MojoHttp

open Rfc3629

/-! ## What a first byte asks for -/

/-- The table of `is_valid_utf8` is that of the syntax. -/
theorem utf8Lead_eq (a : UInt8) :
    utf8Lead a = (alternatives.find? fun r => decide (Within r.first.1 r.first.2 a)).map fun r =>
      (r.tails + 1, r.second.1, r.second.2) :=
  forall_byte (P := fun a => utf8Lead a =
    (alternatives.find? fun r => decide (Within r.first.1 r.first.2 a)).map fun r =>
      (r.tails + 1, r.second.1, r.second.2)) (by decide) a

/-- No byte is the first of two alternatives. -/
theorem alternative_unique (a : UInt8) : ∀ r ∈ alternatives, ∀ r' ∈ alternatives,
    Within r.first.1 r.first.2 a → Within r'.first.1 r'.first.2 a → r' = r := by
  -- of two alternatives, the first bytes of one end before those of the other begin
  have hapart : ∀ r ∈ alternatives, ∀ r' ∈ alternatives,
      r' = r ∨ r.first.2 < r'.first.1 ∨ r'.first.2 < r.first.1 := by
    decide
  intro r hr r' hr' h h'
  rcases hapart r hr r' hr' with heq | hlt | hlt
  · exact heq
  · exact absurd (UInt8.lt_of_lt_of_le (UInt8.lt_of_le_of_lt h.2 hlt) h'.1) (UInt8.lt_irrefl a)
  · exact absurd (UInt8.lt_of_lt_of_le (UInt8.lt_of_le_of_lt h'.2 hlt) h.1) (UInt8.lt_irrefl a)

/-! ## Passing over ASCII -/

/-- From a byte of ASCII on, `skip` passes over bytes of ASCII, one at least. -/
def PassesAscii (data : Bytes) (skip : Nat → Nat) : Prop :=
  ∀ i < data.length, data.getD i 0 < 0x80 →
    i < skip i ∧ skip i ≤ data.length ∧ ∀ k, i ≤ k → k < skip i → data.getD k 0 < 0x80

theorem skipAsciiBytes_spec (data : Bytes) (fuel i : Nat) :
    i ≤ skipAsciiBytes data fuel i ∧ (i ≤ data.length → skipAsciiBytes data fuel i ≤ data.length) ∧
      ∀ k, i ≤ k → k < skipAsciiBytes data fuel i → data.getD k 0 < 0x80 := by
  induction fuel generalizing i with
  | zero => exact ⟨le_rfl, id, fun k hle hlt => absurd hlt (Nat.not_lt.mpr hle)⟩
  | succ fuel ih =>
    rw [skipAsciiBytes]
    split
    · next h =>
      obtain ⟨hle, hlen, hascii⟩ := ih (i + 1)
      refine ⟨by omega, fun _ => hlen h.1, fun k hk hlt => ?_⟩
      rcases Nat.eq_or_lt_of_le hk with rfl | hk
      · exact h.2
      · exact hascii k hk hlt
    · exact ⟨le_rfl, id, fun k hle hlt => absurd hlt (Nat.not_lt.mpr hle)⟩

/-- A byte whose high bit is clear is one of ASCII. -/
theorem high_bit_clear (b : UInt8) : (b &&& 0x80 != 0) = false → b < 0x80 :=
  forall_byte (P := fun b => (b &&& 0x80 != 0) = false → b < 0x80) (by decide) b

theorem skipAsciiChunks_spec (data : Bytes) (fuel i : Nat) :
    i ≤ skipAsciiChunks data fuel i ∧ (i ≤ data.length → skipAsciiChunks data fuel i ≤ data.length) ∧
      ∀ k, i ≤ k → k < skipAsciiChunks data fuel i → data.getD k 0 < 0x80 := by
  induction fuel generalizing i with
  | zero => exact ⟨le_rfl, id, fun k hle hlt => absurd hlt (Nat.not_lt.mpr hle)⟩
  | succ fuel ih =>
    rw [skipAsciiChunks]
    by_cases hlen : i + 64 ≤ data.length
    · rw [if_pos hlen]
      by_cases hany : (slice data i (i + 64)).any fun b => b &&& 0x80 != 0
      · rw [if_pos hany]
        exact ⟨le_rfl, id, fun k hle hlt => absurd hlt (Nat.not_lt.mpr hle)⟩
      · rw [if_neg hany]
        obtain ⟨hle, hend, hascii⟩ := ih (i + 64)
        refine ⟨by omega, fun _ => hend hlen, fun k hk hlt => ?_⟩
        by_cases hchunk : k < i + 64
        -- a byte of the chunk
        · have hmem : data.getD k 0 ∈ slice data i (i + 64) := by
            rw [slice, List.getD_eq_getElem?_getD, List.getElem?_eq_getElem (by omega : k < data.length)]
            refine List.mem_iff_getElem?.mpr ⟨k - i, ?_⟩
            rw [List.getElem?_take, if_pos (by omega), List.getElem?_drop,
              show i + (k - i) = k by omega, List.getElem?_eq_getElem (by omega)]
            rfl
          rw [Bool.not_eq_true, List.any_eq_false] at hany
          exact high_bit_clear _ (Bool.eq_false_iff.mpr (hany _ hmem))
        · exact hascii k (by omega) hlt
    · rw [if_neg hlen]
      exact ⟨le_rfl, id, fun k hle hlt => absurd hlt (Nat.not_lt.mpr hle)⟩

/-- A byte of ASCII is passed over. -/
theorem lt_skipAsciiBytes {data : Bytes} {fuel i : Nat} (hfuel : 0 < fuel) (hi : i < data.length)
    (hascii : data.getD i 0 < 0x80) : i < skipAsciiBytes data fuel i := by
  cases fuel with
  | zero => omega
  | succ fuel =>
    rw [skipAsciiBytes, if_pos ⟨hi, hascii⟩]
    exact (skipAsciiBytes_spec data fuel (i + 1)).1

theorem passesAscii_bytes (data : Bytes) : PassesAscii data fun i => skipAsciiBytes data data.length i := by
  intro i hi hascii
  obtain ⟨-, hlen, hall⟩ := skipAsciiBytes_spec data data.length i
  exact ⟨lt_skipAsciiBytes (by omega) hi hascii, hlen hi.le, hall⟩

theorem le_ascii {b : UInt8} (h : b < 0x80) : b ≤ 0x7F := by
  rw [UInt8.lt_iff_toNat_lt] at h
  rw [UInt8.le_iff_toNat_le]
  exact Nat.le_of_lt_succ h

/-- **The chunks pass over ASCII only**, so the bytes behind them start where a character does. -/
theorem passesAscii_chunks (data : Bytes) : PassesAscii data fun i =>
    skipAsciiBytes data data.length (skipAsciiChunks data data.length i) := by
  intro i hi hascii
  obtain ⟨hle, hlen, hall⟩ := skipAsciiChunks_spec data data.length i
  obtain ⟨hle', hlen', hall'⟩ :=
    skipAsciiBytes_spec data data.length (skipAsciiChunks data data.length i)
  refine ⟨?_, hlen' (hlen hi.le), fun k hk hlt => ?_⟩
  · rcases Nat.eq_or_lt_of_le hle with heq | hlt
    · dsimp only
      rw [← heq]
      exact lt_skipAsciiBytes (by omega) hi hascii
    · exact hlt.trans_le hle'
  · by_cases hchunk : k < skipAsciiChunks data data.length i
    · exact hall k hk hchunk
    · exact hall' k (by omega) hlt

/-! ## The walk -/

/-- `is_valid_utf8`'s loop, with `skip` in place of its two loops over a run of ASCII. -/
def utf8Walk (skip : Nat → Nat) (data : Bytes) : (fuel i : Nat) → Bool
  | 0, _ => true
  | fuel + 1, i =>
    if i ≥ data.length then true
    else if data.getD i 0 < 0x80 then utf8Walk skip data fuel (skip i)
    else
      match utf8Lead (data.getD i 0) with
      | none => false
      | some (needed, lo, hi) =>
        if i + needed ≥ data.length then false
        else if data.getD (i + 1) 0 < lo ∨ data.getD (i + 1) 0 > hi then false
        else if (List.range' 2 (needed - 1)).any fun j =>
            data.getD (i + j) 0 < 0x80 || data.getD (i + j) 0 > 0xBF then false
        else utf8Walk skip data fuel (i + (needed + 1))

theorem isValidUtf8From_eq (data : Bytes) (fuel i : Nat) : isValidUtf8From data fuel i =
    utf8Walk (fun i => skipAsciiBytes data data.length (skipAsciiChunks data data.length i)) data fuel i := by
  induction fuel generalizing i with
  | zero => rfl
  | succ fuel ih =>
    unfold isValidUtf8From utf8Walk
    simp only [ih]
    all_goals rfl

/-- What is passed over can be left out. -/
theorem octets_drop_ascii {data : Bytes} {i j : Nat} (hij : i ≤ j) (hj : j ≤ data.length)
    (hascii : ∀ k, i ≤ k → k < j → data.getD k 0 < 0x80) :
    Octets (data.drop i) ↔ Octets (data.drop j) := by
  induction j, hij using Nat.le_induction with
  | base => rfl
  | succ j hij ih =>
    rw [ih (by omega) fun k hk hlt => hascii k hk (by omega),
      List.drop_eq_getElem_cons (by omega : j < data.length)]
    refine octets_ascii ?_
    have hbyte := hascii j hij (by omega)
    rw [List.getD_eq_getElem?_getD, List.getElem?_eq_getElem (by omega : j < data.length)] at hbyte
    exact le_ascii hbyte

/-- The tails the code looks at are those behind the second byte. -/
theorem tails_iff (data : Bytes) {i n : Nat} (hlen : i + (n + 1) < data.length) :
    ((List.range' 2 (n + 1 - 1)).any fun j =>
        data.getD (i + j) 0 < 0x80 || data.getD (i + j) 0 > 0xBF) = false ↔
      ∀ t ∈ ((data.drop (i + 1)).drop 1).take n, IsTail t := by
  have hbyte : ∀ j < n, (((data.drop (i + 1)).drop 1).take n)[j]? = some (data.getD (i + (2 + j)) 0) := by
    intro j hj
    rw [List.getElem?_take, if_pos hj, List.getElem?_drop, List.getElem?_drop,
      show i + 1 + (1 + j) = i + (2 + j) by omega, List.getD_eq_getElem?_getD,
      List.getElem?_eq_getElem (by omega : i + (2 + j) < data.length)]
    rfl
  have htail : ∀ b : UInt8, (decide (b < 0x80) || decide (b > 0xBF)) = false ↔ IsTail b := by
    intro b
    rw [Bool.or_eq_false_iff, decide_eq_false_iff_not, decide_eq_false_iff_not, UInt8.not_lt,
      UInt8.not_lt]
    rfl
  rw [List.any_eq_false]
  constructor
  · intro h t ht
    obtain ⟨j, hj⟩ := List.mem_iff_getElem?.mp ht
    have hjn : j < n := by
      have hlt := (List.getElem?_eq_some_iff.mp hj).1
      rw [List.length_take] at hlt
      omega
    rw [hbyte j hjn] at hj
    rw [← Option.some.inj hj, ← htail]
    exact Bool.eq_false_iff.mpr (h (2 + j) (List.mem_range'_1.mpr (by omega)))
  · intro h j hj
    have hj := List.mem_range'_1.mp hj
    obtain ⟨k, rfl⟩ : ∃ k, j = 2 + k := ⟨j - 2, by omega⟩
    exact Bool.eq_false_iff.mp
      ((htail _).mpr (h _ (List.mem_of_getElem? (hbyte k (by omega)))))

/-- **The walk accepts the texts of UTF-8.** -/
theorem utf8Walk_iff {skip : Nat → Nat} {data : Bytes} (hskip : PassesAscii data skip) {fuel i : Nat}
    (hfuel : data.length - i < fuel) : utf8Walk skip data fuel i = true ↔ Octets (data.drop i) := by
  -- on the fuel: every step passes over a byte at least
  induction fuel generalizing i with
  | zero => omega
  | succ fuel ih =>
    rw [utf8Walk]
    by_cases hend : i ≥ data.length
    · rw [if_pos hend, List.drop_eq_nil_of_le hend]
      exact iff_of_true rfl octets_nil
    · have hi : i < data.length := by omega
      have hbyte : data.getD i 0 = data[i] := by
        rw [List.getD_eq_getElem?_getD, List.getElem?_eq_getElem hi]
        rfl
      rw [if_neg hend]
      by_cases hascii : data.getD i 0 < 0x80
      · obtain ⟨hlt, hle, hall⟩ := hskip i hi hascii
        rw [if_pos hascii, ih (by omega)]
        exact (octets_drop_ascii hlt.le hle hall).symm
      · rw [if_neg hascii, List.drop_eq_getElem_cons hi, ← hbyte]
        have hhigh : ¬ data.getD i 0 ≤ 0x7F := fun h => hascii (UInt8.lt_of_le_of_lt h (by decide))
        rw [utf8Lead_eq]
        cases hfind : alternatives.find? fun r => decide (Within r.first.1 r.first.2 (data.getD i 0)) with
        | none =>
          rw [Option.map_none]
          refine iff_of_false (by simp) (not_octets hhigh fun r hr hwithin => ?_)
          exact (List.find?_eq_none.mp hfind) r hr (decide_eq_true hwithin)
        | some r =>
          have hr : r ∈ alternatives := List.mem_of_find?_eq_some hfind
          have hfound := List.find?_some hfind
          have hwithin : Within r.first.1 r.first.2 (data.getD i 0) := of_decide_eq_true hfound
          have hone := fun r' hr' h => alternative_unique (data.getD i 0) r hr r' hr' hwithin h
          rw [octets_lead hr hwithin hone, Option.map_some, List.length_drop]
          dsimp only
          by_cases hlen : i + (r.tails + 1) ≥ data.length
          · rw [if_pos hlen]
            exact iff_of_false Bool.false_ne_true fun h => by omega
          · have hsecond : (data.drop (i + 1)).head? = some (data.getD (i + 1) 0) := by
              rw [List.head?_drop, List.getD_eq_getElem?_getD, List.getElem?_eq_getElem (by omega)]
              rfl
            have htails := tails_iff data (Nat.lt_of_not_le hlen)
            rw [if_neg hlen, hsecond]
            by_cases hb : data.getD (i + 1) 0 < r.second.1 ∨ data.getD (i + 1) 0 > r.second.2
            · rw [if_pos hb]
              refine iff_of_false Bool.false_ne_true ?_
              rintro ⟨-, ⟨b, hmem, hle, hle'⟩, -⟩
              obtain rfl := Option.some.inj hmem
              rcases hb with hb | hb
              · exact UInt8.not_lt.mpr hle hb
              · exact UInt8.not_lt.mpr hle' hb
            · rw [if_neg hb]
              have hwithin' : Within r.second.1 r.second.2 (data.getD (i + 1) 0) := by
                rw [not_or] at hb
                exact ⟨UInt8.not_lt.mp hb.1, UInt8.not_lt.mp hb.2⟩
              split
              · next hany =>
                refine iff_of_false Bool.false_ne_true fun h => ?_
                rw [htails.mpr h.2.2.1] at hany
                cases hany
              · next hany =>
                have hrest : (data.drop (i + 1)).drop (r.tails + 1) = data.drop (i + (r.tails + 1 + 1)) := by
                  rw [List.drop_drop, show i + 1 + (r.tails + 1) = i + (r.tails + 1 + 1) by omega]
                rw [ih (by omega), hrest]
                refine ⟨fun h => ⟨by omega, ⟨_, rfl, hwithin'⟩, ?_, h⟩, fun h => h.2.2.2⟩
                exact htails.mp (Bool.eq_false_iff.mpr hany)

/-- **`is_valid_utf8` accepts exactly UTF-8**: the concatenations of well-formed sequences, which are
the encodings of the lists of scalar values. Passing over ASCII 64 bytes at a time does not change
the answer. -/
theorem isValidUtf8_exact (data : Bytes) :
    (isValidUtf8 data = true ↔ Octets data) ∧
    (isValidUtf8 data = true ↔ ∃ cs : List Char, data = cs.flatMap String.utf8EncodeChar) ∧
    isValidUtf8 data =
      utf8Walk (fun i => skipAsciiBytes data data.length i) data (data.length + 1) 0 := by
  have hchunks := utf8Walk_iff (passesAscii_chunks data) (show data.length - 0 < data.length + 1 by omega)
  have hbytes := utf8Walk_iff (passesAscii_bytes data) (show data.length - 0 < data.length + 1 by omega)
  rw [← isValidUtf8From_eq, List.drop_zero] at hchunks
  rw [List.drop_zero] at hbytes
  refine ⟨hchunks, hchunks.trans octets_iff, Bool.eq_iff_iff.mpr (hchunks.trans hbytes.symm)⟩

end MojoHttp
