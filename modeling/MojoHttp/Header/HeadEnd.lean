import MojoHttp.Bytes
import MojoHttp.Lib.LaneScan
import MojoHttp.Lib.CrlfText

/-!
# The end of a head: `find_header_end` and `holds_bare_lf`

Both scan sixty-four lanes at a time, then a byte at a time, and both resume where an earlier
scan of a shorter prefix stopped.

* **`findHeaderEnd_eq`** / **`holdsBareLf_iff`** — what a scan from a start finds, in terms of
  the positions at which CR LF CR LF starts or a bare LF sits.
* **`findHeaderEnd_resume`** / **`holdsBareLf_resume`** — resumed behind a prefix that had
  none, a scan answers what the scan from the first byte answers.
* **`headEnd`** — where the head ends, as one function of the buffer; a longer buffer moves
  nothing (`headEnd_append`).
-/

namespace MojoHttp

open BytesConstant LaneScan CrlfText

/-- `find_header_end`: the index behind the first CR LF CR LF from three bytes before
`searchStart` on. Lane `j` of the four shifted loads is the one that starts at `i + j`. -/
def findHeaderEnd (buffer : Bytes) (searchStart : Nat) : Option Nat :=
  if buffer.length < 4 then none
  else
    let actualStart := searchStart - 3
    match laneLoop 64 (fun i => i + 67 ≤ buffer.length) (emptyLineAt buffer) buffer.length
        actualStart with
    | .inl k => some (k + 4)
    | .inr i => (firstFrom (emptyLineAt buffer) (buffer.length - 3 - i) i).map (· + 4)

/-- An LF at `i` that no CR comes right before. -/
def bareLfAt (buffer : Bytes) (i : Nat) : Bool :=
  buffer[i]? == some LF && (i == 0 || buffer[i - 1]? != some CR)

/-- The lanes of `holds_bare_lf`: an LF, and the byte before it no CR. -/
def bareLfLane (buffer : Bytes) (i : Nat) : Bool :=
  buffer[i]? == some LF && buffer[i - 1]? != some CR

/-- `holds_bare_lf`. The vector's second load is one byte back, so position 0 is asked on its
own. -/
def holdsBareLf (buffer : Bytes) (start : Nat) : Bool :=
  let n := buffer.length
  if start ≥ n then false
  else if start = 0 ∧ buffer[0]? = some LF then true
  else
    match laneLoop 64 (fun i => i + 64 ≤ n) (bareLfLane buffer) n (max start 1) with
    | .inl _ => true
    | .inr i => (firstFrom (bareLfLane buffer) (n - i) i).isSome

/-! ## What a scan finds -/

theorem findHeaderEnd_eq (buffer : Bytes) (searchStart : Nat) :
    findHeaderEnd buffer searchStart
      = (firstFrom (emptyLineAt buffer) (buffer.length - 3 - (searchStart - 3))
          (searchStart - 3)).map (· + 4) := by
  unfold findHeaderEnd
  split
  · rename_i hshort
    rw [show buffer.length - 3 - (searchStart - 3) = 0 from by omega]
    rfl
  · dsimp only
    rcases Nat.lt_or_ge (buffer.length - 3) (searchStart - 3) with hgt | hle
    · -- the search starts behind the last position a terminator can start at
      have hloop : laneLoop 64 (fun i => i + 67 ≤ buffer.length) (emptyLineAt buffer)
          buffer.length (searchStart - 3) = .inr (searchStart - 3) := by
        rw [show buffer.length = buffer.length - 1 + 1 from by omega, laneLoop,
          if_neg (by simp; omega)]
      rw [hloop]
    · have hspec := laneLoop_answer (fun i => i + 67 ≤ buffer.length) (emptyLineAt buffer)
        buffer.length (searchStart - 3) (W := 64) (by decide)
        (fun i h => show i + 64 ≤ buffer.length - 3 by simp at h; omega) hle
      cases hl : laneLoop 64 (fun i => i + 67 ≤ buffer.length) (emptyLineAt buffer)
          buffer.length (searchStart - 3) with
      | inl k =>
        rw [hl] at hspec
        have hk : firstFrom (emptyLineAt buffer) (buffer.length - 3 - (searchStart - 3))
            (searchStart - 3) = some k := hspec
        rw [hk]
        rfl
      | inr i =>
        rw [hl] at hspec
        obtain ⟨-, -, heq⟩ := hspec
        rw [heq]

theorem bareLfAt_lt {buffer : Bytes} {i : Nat} (h : bareLfAt buffer i = true) :
    i < buffer.length := by
  simp only [bareLfAt, Bool.and_eq_true, beq_iff_eq] at h
  exact (List.getElem?_eq_some_iff.mp h.1).1

theorem bareLfAt_of_pos {buffer : Bytes} {i : Nat} (h : 0 < i) :
    bareLfAt buffer i = bareLfLane buffer i := by
  have hz : (i == 0) = false := by simpa using by omega
  simp [bareLfAt, bareLfLane, hz]

theorem holdsBareLf_iff {buffer : Bytes} {start : Nat} :
    holdsBareLf buffer start = true ↔ ∃ i, start ≤ i ∧ bareLfAt buffer i = true := by
  unfold holdsBareLf
  dsimp only
  split
  · rename_i hge
    refine ⟨fun h => (by cases h), ?_⟩
    rintro ⟨i, hi, hb⟩
    have := bareLfAt_lt hb
    omega
  · split
    · rename_i hfirst
      exact ⟨fun _ => ⟨0, by omega, by simp [bareLfAt, hfirst.2]⟩, fun _ => rfl⟩
    · rename_i hge hfirst
      have hscan := isSome_of_laneLoop (W := 64) (fun i => decide (i + 64 ≤ buffer.length))
        (bareLfLane buffer) buffer.length (max start 1) (by decide)
        (fun i h => by simpa using h) (by omega)
      refine (iff_of_eq (congrArg (· = true) hscan)).trans ?_
      rw [Option.isSome_iff_exists]
      refine ⟨?_, ?_⟩
      · rintro ⟨k, hk⟩
        obtain ⟨h1, -, h3, -⟩ := firstFrom_eq_some.mp hk
        exact ⟨k, by omega, by rw [bareLfAt_of_pos (by omega)]; exact h3⟩
      · rintro ⟨i, hi, hb⟩
        -- position 0 was asked before; every other one is the scan's
        have hpos : 0 < i := by
          rcases Nat.eq_zero_or_pos i with rfl | hpos
          · simp only [bareLfAt, Bool.and_eq_true, beq_iff_eq] at hb
            exact absurd ⟨by omega, hb.1⟩ hfirst
          · exact hpos
        have hlt := bareLfAt_lt hb
        rw [bareLfAt_of_pos hpos] at hb
        cases hf : firstFrom (bareLfLane buffer) (buffer.length - max start 1) (max start 1) with
        | some k => exact ⟨k, rfl⟩
        | none =>
          rw [firstFrom_eq_none.mp hf i (by omega) (by omega)] at hb
          cases hb

/-- No bare LF anywhere is what a scan from the first byte asks. -/
theorem holdsBareLf_zero_eq_false {buffer : Bytes} :
    holdsBareLf buffer 0 = false ↔ NoBareLf buffer := by
  rw [Bool.eq_false_iff, ne_eq, holdsBareLf_iff]
  refine ⟨fun h i hi => ?_, ?_⟩
  · rcases Nat.eq_zero_or_pos i with rfl | hpos
    · exact absurd ⟨0, Nat.le_refl _, by simp [bareLfAt, hi]⟩ h
    · refine ⟨i - 1, by omega, ?_⟩
      by_cases hcr : buffer[i - 1]? = some CR
      · exact hcr
      · exact absurd ⟨i, Nat.zero_le _, by simp [bareLfAt, hi, hcr]⟩ h
  · rintro h ⟨i, -, hb⟩
    simp only [bareLfAt, Bool.and_eq_true, Bool.or_eq_true, beq_iff_eq, bne_iff_ne] at hb
    obtain ⟨j, rfl, hj⟩ := h i hb.1
    rcases hb.2 with h0 | h1
    · omega
    · exact h1 hj

/-! ## Resumed scans -/

/-- Where the head ends: behind the first CR LF CR LF. -/
def headEnd (buffer : Bytes) : Option Nat :=
  (firstFrom (emptyLineAt buffer) (buffer.length - 3) 0).map (· + 4)

theorem headEnd_eq_some {buffer : Bytes} {h : Nat} :
    headEnd buffer = some h ↔ ∃ k, h = k + 4 ∧ emptyLineAt buffer k = true ∧
      ∀ j < k, emptyLineAt buffer j = false := by
  unfold headEnd
  rw [Option.map_eq_some_iff]
  refine ⟨?_, ?_⟩
  · rintro ⟨k, hk, rfl⟩
    obtain ⟨-, -, h3, hmin⟩ := firstFrom_eq_some.mp hk
    exact ⟨k, rfl, h3, fun j hj => hmin j (Nat.zero_le _) hj⟩
  · rintro ⟨k, rfl, hat, hmin⟩
    have hlt := emptyLineAt_lt hat
    exact ⟨k, firstFrom_eq_some.mpr ⟨Nat.zero_le _, by omega, hat, fun j _ hj => hmin j hj⟩, rfl⟩

theorem headEnd_eq_none {buffer : Bytes} :
    headEnd buffer = none ↔ ∀ k, emptyLineAt buffer k = false := by
  unfold headEnd
  rw [Option.map_eq_none_iff, firstFrom_eq_none]
  refine ⟨fun h k => ?_, fun h k _ _ => h k⟩
  cases hk : emptyLineAt buffer k with
  | false => rfl
  | true =>
    have hlt := emptyLineAt_lt hk
    rw [h k (Nat.zero_le _) (by omega)] at hk
    cases hk

theorem headEnd_le {buffer : Bytes} {h : Nat} (hh : headEnd buffer = some h) :
    h ≤ buffer.length := by
  obtain ⟨k, rfl, hat, -⟩ := headEnd_eq_some.mp hh
  have := emptyLineAt_lt hat
  omega

/-- A head that has ended ends there whatever arrives behind it. -/
theorem headEnd_append {a : Bytes} {h : Nat} (hh : headEnd a = some h) (b : Bytes) :
    headEnd (a ++ b) = some h := by
  obtain ⟨k, rfl, hat, hmin⟩ := headEnd_eq_some.mp hh
  have hlt := emptyLineAt_lt hat
  refine headEnd_eq_some.mpr ⟨k, rfl, ?_, fun j hj => ?_⟩
  · rw [emptyLineAt_append_left hlt]
    exact hat
  · rw [emptyLineAt_append_left (by omega)]
    exact hmin j hj

/-- A head cut at its end still ends there. -/
theorem headEnd_take {b : Bytes} {h n : Nat} (hh : headEnd b = some h) (hn : h ≤ n) :
    headEnd (b.take n) = some h := by
  obtain ⟨k, rfl, hat, hmin⟩ := headEnd_eq_some.mp hh
  refine headEnd_eq_some.mpr ⟨k, rfl, ?_, fun j hj => ?_⟩
  · rw [emptyLineAt_take (by omega)]
    exact hat
  · rw [emptyLineAt_take (by omega)]
    exact hmin j hj

/-- **The resumed search is the whole search**: a prefix that was searched and had no end
hides none, since the search backs off the three bytes a terminator may begin in. -/
theorem findHeaderEnd_resume {b : Bytes} {n : Nat} (hn : headEnd (b.take n) = none) :
    findHeaderEnd b n = headEnd b := by
  rw [findHeaderEnd_eq]
  unfold headEnd
  have hnone : ∀ k, k + 3 < n → emptyLineAt b k = false := by
    intro k hk
    rw [← emptyLineAt_take hk]
    exact headEnd_eq_none.mp hn k
  rcases Nat.lt_or_ge (b.length - 3) (n - 3) with hlt | hge
  · -- everything was searched before
    rw [show b.length - 3 - (n - 3) = 0 from by omega]
    have hall : firstFrom (emptyLineAt b) (b.length - 3) 0 = none := by
      rw [firstFrom_eq_none]
      intro j _ hj
      exact hnone j (by omega)
    rw [hall]
    rfl
  · have hsplit := firstFrom_add (emptyLineAt b) (n - 3) (b.length - 3 - (n - 3)) 0
    have hpre : firstFrom (emptyLineAt b) (n - 3) 0 = none := by
      rw [firstFrom_eq_none]
      intro j _ hj
      exact hnone j (by omega)
    rw [hpre, Option.none_or, Nat.zero_add,
      show n - 3 + (b.length - 3 - (n - 3)) = b.length - 3 from by omega] at hsplit
    rw [hsplit]

theorem findHeaderEnd_zero (b : Bytes) : findHeaderEnd b 0 = headEnd b :=
  findHeaderEnd_resume (by rw [List.take_zero]; rfl)

/-- The resumed scan for a bare LF: each byte is asked with the one before it, which may sit
in what was scanned. -/
theorem holdsBareLf_resume {b : Bytes} {n : Nat} (hn : NoBareLf (b.take n)) :
    holdsBareLf b n = holdsBareLf b 0 := by
  rw [Bool.eq_iff_iff, holdsBareLf_iff, holdsBareLf_iff]
  refine ⟨fun ⟨i, _, hb⟩ => ⟨i, Nat.zero_le _, hb⟩, ?_⟩
  rintro ⟨i, -, hb⟩
  refine ⟨i, Nat.le_of_not_lt fun hlt => ?_, hb⟩
  simp only [bareLfAt, Bool.and_eq_true, Bool.or_eq_true, beq_iff_eq, bne_iff_ne] at hb
  obtain ⟨j, rfl, hj⟩ := hn i (by rw [List.getElem?_take_of_lt hlt]; exact hb.1)
  rw [List.getElem?_take_of_lt (by omega)] at hj
  rcases hb.2 with h0 | h1
  · omega
  · exact h1 hj

end MojoHttp
