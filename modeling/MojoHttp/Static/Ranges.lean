import MojoHttp.Static
import MojoHttp.Lib.Rfc9110Ranges
import MojoHttp.Header.Refinement

/-!
# Ranges of a static file

What `parse_range` reads of a header value against what the value names, and the 206 it comes to.

* **`Reads`** — a range is valid, unsatisfiable or ignored as the value has it.
* **`reads_iff`** — that holds but where a start past the end is met before a broken last position.
* **`partial_agrees`** — the headers of a 206 and its file bounds are those of one range.
-/

namespace MojoHttp

open BytesConstant Rfc9110

namespace Ranges

/-! ## Numbers -/

theorem digit_toNat {c : UInt8} : Digit c ↔ 48 ≤ c.toNat ∧ c.toNat ≤ 57 := by
  rw [Digit, UInt8.le_iff_toNat_le, UInt8.le_iff_toNat_le]
  rfl

theorem digit_iff {c : UInt8} : Digit c ↔ ¬(c < ZERO ∨ c > NINE) := by
  rw [not_or]
  simp only [gt_iff_lt, UInt8.not_lt]

theorem parseEnvIntFrom_eq_some {t : Bytes} {n : Nat} (hn : n < 2 ^ 63) {v : Int} :
    parseEnvIntFrom t n = some v ↔
      (∀ c ∈ t, Digit c) ∧ numberFrom n t < 2 ^ 63 ∧ v = numberFrom n t := by
  induction t generalizing n with
  | nil =>
    rw [parseEnvIntFrom, numberFrom_nil, Option.some.injEq]
    constructor
    · rintro rfl
      exact ⟨List.forall_mem_nil _, hn, rfl⟩
    · rintro ⟨-, -, rfl⟩
      rfl
  | cons c t ih =>
    rw [parseEnvIntFrom, List.forall_mem_cons, numberFrom_cons]
    by_cases hc : Digit c
    · have hbounds := digit_toNat.mp hc
      have hcast : (n : Int) * 10 + (c.toNat - ZERO.toNat) = ((n * 10 + (c.toNat - 0x30) : Nat) : Int) := by
        show (n : Int) * 10 + (c.toNat - (48 : Nat)) = _
        omega
      rw [if_neg (digit_iff.mp hc)]
      dsimp only
      rw [hcast]
      by_cases hbig : n * 10 + (c.toNat - 0x30) < 2 ^ 63
      · rw [if_neg, ih hbig, and_assoc, and_iff_right hc]
        show ¬(n : Int) > (2 ^ 63 - 1 - ((c.toNat : Int) - (48 : Nat))) / 10
        omega
      · -- past the range here, and no digit behind makes it less
        have hle := le_numberFrom (n * 10 + (c.toNat - 0x30)) t
        rw [if_pos]
        · simp only [reduceCtorEq, false_iff]
          rintro ⟨-, hlt, -⟩
          omega
        · show (n : Int) > (2 ^ 63 - 1 - ((c.toNat : Int) - (48 : Nat))) / 10
          omega
    · rw [if_pos (not_not.mp fun h => hc (digit_iff.mpr h))]
      simp [hc]

/-- **A bound is digits alone**, of a number that an `Int` holds. -/
theorem parseEnvInt_eq_some {raw : Bytes} {v : Int} :
    parseEnvInt raw = some v ↔ IsDigits raw ∧ number raw < 2 ^ 63 ∧ v = number raw := by
  unfold parseEnvInt IsDigits number
  cases raw with
  | nil => simp
  | cons c t =>
    rw [List.isEmpty_cons, if_neg Bool.false_ne_true, ← Nat.cast_zero,
      parseEnvIntFrom_eq_some (by decide)]
    simp

theorem parseEnvInt_digits {raw : Bytes} (h : IsDigits raw) (hfits : number raw < 2 ^ 63) :
    parseEnvInt raw = some (number raw : Int) := parseEnvInt_eq_some.mpr ⟨h, hfits, rfl⟩

/-! ## The two sides of the dash -/

/-- The header value names the range: the unit in any case, and the two sides of the dash. -/
def Names (value : Bytes) (spec : RangeSpec) : Prop :=
  ∃ unit lo hi, value = unit ++ (lo ++ DASH :: hi) ∧ asciiLowercase unit = ascii "bytes=" ∧
    Bounds lo hi spec

theorem length_unit {unit : Bytes} (h : asciiLowercase unit = ascii "bytes=") : unit.length = 6 := by
  have hlength := congrArg List.length h
  rw [asciiLowercase, List.length_map] at hlength
  exact hlength

/-- `parse_range` of a value with a dash and no comma behind the unit. -/
theorem parseRange_split {unit lo hi : Bytes} (hunit : asciiLowercase unit = ascii "bytes=")
    (hdash : DASH ∉ lo) (hlo : COMMA ∉ lo) (hhi : COMMA ∉ hi) (total : Int) :
    parseRange (unit ++ (lo ++ DASH :: hi)) total = parseBounds lo hi total := by
  have hlength := length_unit hunit
  have hfind : (lo ++ DASH :: hi).findIdx? (· == 0x2D) = some lo.length := by
    rw [List.findIdx?_append, List.findIdx?_eq_none_iff.mpr, Option.none_or, List.findIdx?_cons,
      if_pos (by decide), Option.map_some, Nat.zero_add]
    intro c hc
    refine beq_eq_false_iff_ne.mpr fun heq => hdash ?_
    rw [← show c = DASH from heq]
    exact hc
  have hcomma : (lo ++ DASH :: hi).contains COMMA = false := by
    rw [List.contains_eq_mem, decide_eq_false_iff_not, List.mem_append, List.mem_cons]
    rintro (hmem | heq | hmem)
    · exact hlo hmem
    · exact absurd heq (by decide)
    · exact hhi hmem
  unfold parseRange
  rw [if_neg, List.drop_left' hlength]
  · have hdrop : (lo ++ DASH :: hi).drop (lo.length + 1) = hi := by
      rw [List.append_cons, List.drop_left' (by simp)]
    simp only [hcomma, Bool.false_eq_true, if_false, hfind, List.take_left, hdrop]
  · rw [List.take_left' hlength, nameIs_iff.mpr hunit]
    simp [hlength]

/-- What is not ignored has the unit, a dash, and no comma. -/
theorem split_of_parseRange {value : Bytes} {total : Int} (h : parseRange value total ≠ .none) :
    ∃ unit lo hi, value = unit ++ (lo ++ DASH :: hi) ∧ asciiLowercase unit = ascii "bytes=" ∧
      DASH ∉ lo ∧ COMMA ∉ lo ∧ COMMA ∉ hi := by
  unfold parseRange at h
  split at h
  · exact absurd rfl h
  · next hunit =>
    rw [not_or, Bool.not_eq_false, nameIs_iff] at hunit
    dsimp only at h
    split at h
    · exact absurd rfl h
    · next hcomma =>
      split at h
      · exact absurd rfl h
      · next dash hfind =>
        obtain ⟨hlt, heq, hbefore⟩ := List.findIdx?_eq_some_iff_getElem.mp hfind
        have hsplit : value.drop 6 =
            (value.drop 6).take dash ++ DASH :: (value.drop 6).drop (dash + 1) := by
          conv_lhs => rw [← List.take_append_drop dash (value.drop 6), List.drop_eq_getElem_cons hlt,
            beq_iff_eq.mp heq]
        have hnone : COMMA ∉ value.drop 6 := by simpa using hcomma
        refine ⟨value.take 6, (value.drop 6).take dash, (value.drop 6).drop (dash + 1), ?_, hunit.2,
          ?_, ?_, ?_⟩
        · rw [← hsplit, List.take_append_drop]
        · intro hmem
          obtain ⟨i, hi, hget⟩ := List.mem_iff_getElem.mp hmem
          rw [List.length_take] at hi
          rw [List.getElem_take] at hget
          exact hbefore i (by omega) (by rw [hget]; rfl)
        · exact fun hmem => hnone ((List.take_subset _ _) hmem)
        · exact fun hmem => hnone ((List.drop_subset _ _) hmem)

/-- The first dash is where a value with a unit and a dash comes apart. -/
theorem split_unique {unit unit' lo lo' hi hi' : Bytes}
    (hunit : asciiLowercase unit = ascii "bytes=") (hunit' : asciiLowercase unit' = ascii "bytes=")
    (hlo : DASH ∉ lo) (hlo' : DASH ∉ lo')
    (heq : unit ++ (lo ++ DASH :: hi) = unit' ++ (lo' ++ DASH :: hi')) : lo = lo' ∧ hi = hi' := by
  have hlength : unit.length = unit'.length := (length_unit hunit).trans (length_unit hunit').symm
  have hrest := (List.append_inj heq hlength).2
  have hparts := congrArg (List.splitOn DASH) hrest
  rw [List.splitOn_append_cons_self_of_not_mem hlo, List.splitOn_append_cons_self_of_not_mem hlo'] at hparts
  obtain rfl := (List.cons.inj hparts).1
  exact ⟨rfl, (List.cons.inj (List.append_cancel_left hrest)).2⟩

/-- A value names one range at most. -/
theorem Names.unique {value : Bytes} {spec spec' : RangeSpec} (h : Names value spec)
    (h' : Names value spec') : spec = spec' := by
  obtain ⟨unit, lo, hi, rfl, hunit, hbounds⟩ := h
  obtain ⟨unit', lo', hi', heq, hunit', hbounds'⟩ := h'
  obtain ⟨rfl, rfl⟩ := split_unique hunit hunit' (hbounds.not_mem (by decide)).1
    (hbounds'.not_mem (by decide)).1 heq
  exact hbounds.unique hbounds'

/-! ## What a range comes to -/

/-- The bytes a range selects, as the server puts it. -/
def ofSpec (total : Int) : RangeSpec → ByteRange
  | .int first last _ =>
    if total ≤ first then .unsatisfiable
    else
      match last with
      | none => .valid first (total - 1)
      | some l => .valid first (if total ≤ l then total - 1 else l)
  | .suffix length =>
    if length = 0 ∨ total = 0 then .unsatisfiable
    else if total ≤ length then .valid 0 (total - 1)
    else .valid (total - length) (total - 1)

/-- The bounds are the bytes that the range selects. -/
structure Served (spec : RangeSpec) (total start stop : Int) : Prop where
  nonneg : 0 ≤ start
  ordered : start ≤ stop
  inside : stop < total
  selects : ∀ i : Nat, spec.Selects total.toNat i ↔ start ≤ i ∧ (i : Int) ≤ stop

theorem Served.selects_start {spec : RangeSpec} {total start stop : Int}
    (h : Served spec total start stop) : spec.Selects total.toNat start.toNat := by
  have hnonneg := h.nonneg
  have hordered := h.ordered
  exact (h.selects start.toNat).mpr ⟨by omega, by omega⟩

theorem ofSpec_cases {total : Int} (h : 0 ≤ total) (spec : RangeSpec) :
    (ofSpec total spec = .unsatisfiable ∧ ∀ i, ¬spec.Selects total.toNat i) ∨
      ∃ start stop, ofSpec total spec = .valid start stop ∧ Served spec total start stop := by
  cases spec with
  | int first last ordered =>
    unfold ofSpec
    dsimp only
    by_cases hpast : total ≤ first
    · left
      rw [if_pos hpast]
      refine ⟨rfl, ?_⟩
      rintro i ⟨hfirst, -, hlt⟩
      omega
    · right
      rw [if_neg hpast]
      cases last with
      | none =>
        refine ⟨_, _, rfl, by omega, by omega, by omega, ?_⟩
        intro i
        simp only [RangeSpec.Selects, Option.mem_def, reduceCtorEq, false_imp_iff, forall_const, true_and]
        omega
      | some l =>
        have hle := ordered l rfl
        refine ⟨_, _, rfl, by omega, by split <;> omega, by split <;> omega, ?_⟩
        intro i
        simp only [RangeSpec.Selects, Option.mem_def, Option.some.injEq, forall_eq']
        split <;> omega
  | suffix length =>
    rw [ofSpec]
    by_cases hempty : length = 0 ∨ total = 0
    · left
      rw [if_pos hempty]
      refine ⟨rfl, ?_⟩
      rintro i ⟨hbehind, hlt⟩
      omega
    · right
      rw [if_neg hempty, not_or] at *
      by_cases hwhole : total ≤ length
      · rw [if_pos hwhole]
        refine ⟨_, _, rfl, by omega, by omega, by omega, ?_⟩
        intro i
        simp only [RangeSpec.Selects]
        omega
      · rw [if_neg hwhole]
        refine ⟨_, _, rfl, by omega, by omega, by omega, ?_⟩
        intro i
        simp only [RangeSpec.Selects]
        omega

/-- How the two sides of the dash are read. -/
inductive ReadBounds (lo hi : Bytes) (total : Int) : ByteRange → Prop where
  | named {spec : RangeSpec} (hbounds : Bounds lo hi spec) (hfits : spec.Below (2 ^ 63)) :
      ReadBounds lo hi total (ofSpec total spec)
  /-- The start is past the end: the last position is not looked at. -/
  | past (hlo : IsDigits lo) (hfits : number lo < 2 ^ 63) (hpast : total ≤ number lo) (hhi : hi ≠ []) :
      ReadBounds lo hi total .unsatisfiable
  | ignored (hnone : ∀ spec, Bounds lo hi spec → ¬spec.Below (2 ^ 63))
      (hinside : IsDigits lo → number lo < 2 ^ 63 → (number lo : Int) < total) :
      ReadBounds lo hi total .none

theorem parseBounds_reads (lo hi : Bytes) {total : Int} (h : 0 ≤ total) :
    ReadBounds lo hi total (parseBounds lo hi total) := by
  unfold parseBounds
  by_cases hlo : lo = []
  · subst hlo
    rw [List.isEmpty_nil, if_pos rfl]
    cases hsuffix : parseEnvInt hi with
    | none =>
      refine ReadBounds.ignored ?_ fun hdigits => absurd rfl hdigits.1
      intro spec hbounds hbelow
      cases hbounds with
      | span hlo _ _ => exact hlo.1 rfl
      | onward hlo _ => exact hlo.1 rfl
      | suffix hhi =>
        rw [parseEnvInt_digits hhi hbelow] at hsuffix
        cases hsuffix
    | some suffix =>
      obtain ⟨hdigits, hfits, rfl⟩ := parseEnvInt_eq_some.mp hsuffix
      have hread : ReadBounds [] hi total _ := ReadBounds.named (Bounds.suffix hdigits) hfits
      rw [ofSpec] at hread
      have hzero : ((number hi : Int) ≤ 0 ∨ total = 0) ↔ (number hi = 0 ∨ total = 0) := by omega
      simp only [hzero, ge_iff_le]
      exact hread
  · rw [List.isEmpty_eq_false_iff.mpr hlo, if_neg Bool.false_ne_true]
    cases hstart : parseEnvInt lo with
    | none =>
      refine ReadBounds.ignored ?_ fun hdigits hfits => by
        rw [parseEnvInt_digits hdigits hfits] at hstart
        cases hstart
      intro spec hbounds hbelow
      have hdigits : IsDigits lo ∧ number lo < 2 ^ 63 := by
        cases hbounds with
        | span hlo _ _ => exact ⟨hlo, hbelow.1⟩
        | onward hlo _ => exact ⟨hlo, hbelow.1⟩
        | suffix _ => exact absurd rfl hlo
      rw [parseEnvInt_digits hdigits.1 hdigits.2] at hstart
      cases hstart
    | some start =>
      obtain ⟨hdigits, hfits, rfl⟩ := parseEnvInt_eq_some.mp hstart
      dsimp only
      by_cases hhi : hi = []
      · subst hhi
        have hread : ReadBounds lo [] total _ := ReadBounds.named
          (Bounds.onward hdigits fun l hl => by cases hl) ⟨hfits, fun l hl => by cases hl⟩
        rw [List.isEmpty_nil, if_pos rfl]
        exact hread
      · by_cases hpast : (number lo : Int) ≥ total
        · rw [if_pos hpast]
          exact ReadBounds.past hdigits hfits hpast hhi
        · rw [if_neg hpast, List.isEmpty_eq_false_iff.mpr hhi, if_neg Bool.false_ne_true]
          have hspan : ∀ spec, Bounds lo hi spec → spec.Below (2 ^ 63) →
              IsDigits hi ∧ number hi < 2 ^ 63 ∧ number lo ≤ number hi := by
            intro spec hbounds hbelow
            cases hbounds with
            | span _ hhi ordered => exact ⟨hhi, hbelow.2 _ rfl, ordered _ rfl⟩
            | onward _ _ => exact absurd rfl hhi
            | suffix _ => exact absurd rfl hlo
          cases hstop : parseEnvInt hi with
          | none =>
            refine ReadBounds.ignored ?_ fun _ _ => not_le.mp hpast
            intro spec hbounds hbelow
            obtain ⟨hdigits', hfits', -⟩ := hspan spec hbounds hbelow
            rw [parseEnvInt_digits hdigits' hfits'] at hstop
            cases hstop
          | some stop =>
            obtain ⟨hdigits', hfits', rfl⟩ := parseEnvInt_eq_some.mp hstop
            dsimp only
            by_cases hback : (number hi : Int) < number lo
            · rw [if_pos hback]
              refine ReadBounds.ignored ?_ fun _ _ => not_le.mp hpast
              intro spec hbounds hbelow
              have hle := (hspan spec hbounds hbelow).2.2
              omega
            · rw [if_neg hback]
              have hread : ReadBounds lo hi total _ := ReadBounds.named
                (Bounds.span hdigits hdigits' fun l hl => by cases hl; omega)
                ⟨hfits, fun l hl => by cases hl; exact hfits'⟩
              unfold ofSpec at hread
              dsimp only at hread
              rw [if_neg (by omega)] at hread
              exact hread

/-! ## What a header value comes to -/

/-- What a value is read as is what it names; of a value with a number past the `Int`s it may also be
ignored. -/
structure Reads (value : Bytes) (total : Int) (r : ByteRange) : Prop where
  valid : ∀ start stop, r = .valid start stop →
    ∃ spec, Names value spec ∧ Served spec total start stop
  unsatisfiable : r = .unsatisfiable →
    ∃ spec, Names value spec ∧ ∀ i, ¬spec.Selects total.toNat i
  ignored : (∀ spec, ¬Names value spec) → r = .none
  served : ∀ spec, Names value spec → spec.Below (2 ^ 63) → (∃ i, spec.Selects total.toNat i) →
    ∃ start stop, r = .valid start stop ∧ Served spec total start stop
  refused : ∀ spec, Names value spec → spec.Below (2 ^ 63) → (∀ i, ¬spec.Selects total.toNat i) →
    r = .unsatisfiable

/-- A start past the end, and behind the dash something that is no last position for it. -/
def Misread (value : Bytes) (total : Int) : Prop :=
  ∃ unit lo hi, value = unit ++ (lo ++ DASH :: hi) ∧ asciiLowercase unit = ascii "bytes=" ∧
    COMMA ∉ hi ∧ IsDigits lo ∧ number lo < 2 ^ 63 ∧ total ≤ number lo ∧ hi ≠ [] ∧
    ¬(IsDigits hi ∧ number lo ≤ number hi)

theorem reads_none {value : Bytes} {total : Int}
    (h : ∀ spec, Names value spec → ¬spec.Below (2 ^ 63)) : Reads value total .none := by
  constructor
  · intro start stop hvalid
    cases hvalid
  · intro hunsat
    cases hunsat
  · exact fun _ => rfl
  · exact fun spec hnames hbelow _ => absurd hbelow (h spec hnames)
  · exact fun spec hnames hbelow _ => absurd hbelow (h spec hnames)

theorem reads_ofSpec {value : Bytes} {total : Int} {spec : RangeSpec} (htotal : 0 ≤ total)
    (h : Names value spec) : Reads value total (ofSpec total spec) := by
  rcases ofSpec_cases htotal spec with ⟨heq, hnone⟩ | ⟨start, stop, heq, hserved⟩
  · rw [heq]
    constructor
    · intro start stop hvalid
      cases hvalid
    · exact fun _ => ⟨spec, h, hnone⟩
    · exact fun hunnamed => absurd h (hunnamed spec)
    · rintro spec' h' - ⟨i, hi⟩
      rw [h'.unique h] at hi
      exact absurd hi (hnone i)
    · exact fun _ _ _ _ => rfl
  · rw [heq]
    constructor
    · intro start' stop' hvalid
      cases hvalid
      exact ⟨spec, h, hserved⟩
    · intro hunsat
      cases hunsat
    · exact fun hunnamed => absurd h (hunnamed spec)
    · rintro spec' h' - -
      rw [h'.unique h]
      exact ⟨start, stop, rfl, hserved⟩
    · rintro spec' h' - hnone
      rw [h'.unique h] at hnone
      exact absurd hserved.selects_start (hnone _)

theorem bounds_iff_of_past {lo hi : Bytes} (hlo : IsDigits lo) (hhi : hi ≠ []) :
    (∃ spec, Bounds lo hi spec) ↔ IsDigits hi ∧ number lo ≤ number hi := by
  constructor
  · rintro ⟨spec, hbounds⟩
    cases hbounds with
    | span _ hhi ordered => exact ⟨hhi, ordered _ rfl⟩
    | onward _ _ => exact absurd rfl hhi
    | suffix _ => exact absurd rfl hlo.1
  · rintro ⟨hdigits, hle⟩
    exact ⟨_, Bounds.span hlo hdigits fun l hl => by cases hl; exact hle⟩

/-- **A range is read as its value names it** — a value that is no range is ignored, a range that
selects nothing is unsatisfiable, and any other is served exactly — but where the start is past the
end and what stands behind the dash is no last position for it. -/
theorem reads_iff (value : Bytes) {total : Int} (htotal : 0 ≤ total) :
    Reads value total (parseRange value total) ↔ ¬Misread value total := by
  by_cases hsplit : ∃ unit lo hi, value = unit ++ (lo ++ DASH :: hi) ∧
      asciiLowercase unit = ascii "bytes=" ∧ DASH ∉ lo ∧ COMMA ∉ lo ∧ COMMA ∉ hi
  · obtain ⟨unit, lo, hi, rfl, hunit, hdash, hlo, hhi⟩ := hsplit
    -- the value comes apart in this way only
    have hnames : ∀ spec, Names (unit ++ (lo ++ DASH :: hi)) spec → Bounds lo hi spec := by
      rintro spec ⟨unit', lo', hi', heq, hunit', hbounds⟩
      obtain ⟨rfl, rfl⟩ := split_unique hunit hunit' hdash (hbounds.not_mem (by decide)).1 heq
      exact hbounds
    have hmisread : Misread (unit ++ (lo ++ DASH :: hi)) total ↔
        IsDigits lo ∧ number lo < 2 ^ 63 ∧ total ≤ number lo ∧ hi ≠ [] ∧
          ¬(IsDigits hi ∧ number lo ≤ number hi) := by
      constructor
      · rintro ⟨unit', lo', hi', heq, hunit', -, hdigits, hrest⟩
        obtain ⟨rfl, rfl⟩ := split_unique hunit hunit' hdash (hdigits.not_mem (by decide)) heq
        exact ⟨hdigits, hrest⟩
      · exact fun hrest => ⟨unit, lo, hi, rfl, hunit, hhi, hrest⟩
    rw [parseRange_split hunit hdash hlo hhi, hmisread]
    have hread := parseBounds_reads lo hi htotal
    generalize parseBounds lo hi total = r at hread
    cases hread with
    | @named spec hbounds hfits =>
      refine iff_of_true (reads_ofSpec htotal ⟨unit, lo, hi, rfl, hunit, hbounds⟩) ?_
      rintro ⟨hdigits, -, -, hne, hbroken⟩
      exact hbroken ((bounds_iff_of_past hdigits hne).mp ⟨spec, hbounds⟩)
    | past hdigits hfits hpast hne =>
      by_cases hlast : IsDigits hi ∧ number lo ≤ number hi
      · have hbounds := Bounds.span hdigits hlast.1 fun l hl => by cases hl; exact hlast.2
        have hread := reads_ofSpec htotal ⟨unit, lo, hi, rfl, hunit, hbounds⟩
        unfold ofSpec at hread
        dsimp only at hread
        rw [if_pos hpast] at hread
        exact iff_of_true hread fun hbroken => hbroken.2.2.2.2 hlast
      · refine iff_of_false ?_ fun hnot => hnot ⟨hdigits, hfits, hpast, hne, hlast⟩
        intro hread
        obtain ⟨spec, hspec, -⟩ := hread.unsatisfiable rfl
        exact hlast ((bounds_iff_of_past hdigits hne).mp ⟨spec, hnames spec hspec⟩)
    | ignored hnone hinside =>
      refine iff_of_true (reads_none fun spec hspec => hnone spec (hnames spec hspec)) ?_
      rintro ⟨hdigits, hfits, hpast, -, -⟩
      exact absurd hpast (not_le.mpr (hinside hdigits hfits))
  · have hignored : parseRange value total = .none := by
      by_contra hsome
      exact hsplit (split_of_parseRange hsome)
    rw [hignored]
    refine iff_of_true (reads_none ?_) ?_
    · rintro spec ⟨unit, lo, hi, rfl, hunit, hbounds⟩
      have hcomma := hbounds.not_mem (c := COMMA) (by decide)
      exact absurd ⟨unit, lo, hi, rfl, hunit, (hbounds.not_mem (by decide)).1, hcomma⟩ hsplit
    · rintro ⟨unit, lo, hi, rfl, hunit, hhi, hdigits, -⟩
      exact hsplit ⟨unit, lo, hi, rfl, hunit, hdigits.not_mem (by decide), hdigits.not_mem (by decide), hhi⟩

/-- **What is served is named**: a valid range is the bytes of the one range of its value. -/
theorem exists_of_valid {value : Bytes} {total start stop : Int} (htotal : 0 ≤ total)
    (h : parseRange value total = .valid start stop) :
    ∃ spec, Names value spec ∧ Served spec total start stop := by
  have hsome : parseRange value total ≠ .none := by
    rw [h]
    exact ByteRange.noConfusion
  obtain ⟨unit, lo, hi, rfl, hunit, hdash, hlo, hhi⟩ := split_of_parseRange hsome
  rw [parseRange_split hunit hdash hlo hhi] at h
  have hread := parseBounds_reads lo hi htotal
  rw [h] at hread
  generalize hr : ByteRange.valid start stop = r at hread
  cases hread with
  | named hbounds hfits =>
    refine (reads_ofSpec htotal ⟨unit, lo, hi, rfl, hunit, hbounds⟩).valid start stop hr.symm
  | past _ _ _ _ => cases hr
  | ignored _ _ => cases hr

end Ranges

/-! ## The store of a 206 -/

namespace Headers

/-- A store that stands for a map, within its sizes. -/
structure Stored (h : Headers) (m : InsertionMap Bytes Bytes) (bytes entries : Nat) : Prop where
  refines : Refines h m
  buf : h.buf.length ≤ bytes
  count : h.count ≤ entries

theorem Stored.setBytes {h : Headers} {m : InsertionMap Bytes Bytes} {bytes entries : Nat}
    (hs : Stored h m bytes entries) (name value : Bytes) (bytes' : Nat)
    (hbytes : bytes + value.length + name.length ≤ bytes') (hfits : bytes' < 2 ^ 31)
    (hentries : entries < 32767) :
    Stored (h.setBytes .packed name value) (m.set (asciiLowercase name) value) bytes' (entries + 1) := by
  obtain ⟨hbuf, hcount⟩ := setBytes_bounds .packed h name value
  have hb := hs.buf
  have hc := hs.count
  refine ⟨setBytes_refines hs.refines (IndexWords.packed_exactTo ?_ ?_), ?_, ?_⟩ <;> omega

theorem Stored.empty : Stored Headers.empty InsertionMap.empty 0 0 :=
  ⟨empty_refines, Nat.le_refl 0, Nat.le_refl 0⟩

/-- A write that may or may not be made: every other name is as it was. -/
theorem Stored.ite {h : Headers} {m : InsertionMap Bytes Bytes} {bytes entries : Nat}
    (hs : Stored h m bytes entries) (c : Prop) [Decidable c] (name value : Bytes) (bytes' : Nat)
    (hbytes : bytes + value.length + name.length ≤ bytes') (hfits : bytes' < 2 ^ 31)
    (hentries : entries < 32767) :
    ∃ m', Stored (if c then h.setBytes .packed name value else h) m' bytes' (entries + 1) ∧
      ∀ k, k ≠ asciiLowercase name → m'.get? k = m.get? k := by
  split
  · exact ⟨_, hs.setBytes name value bytes' hbytes hfits hentries, fun k hk => InsertionMap.get?_set_of_ne m value hk⟩
  · have hbuf := hs.buf
    have hcount := hs.count
    exact ⟨m, ⟨hs.refines, by omega, by omega⟩, fun _ _ => rfl⟩

end Headers

open Headers Ranges

theorem setContentLength_eq (h : Headers) {l : Int} (hnonneg : 0 ≤ l) (hlt : l < 2 ^ 63) :
    FileResponse.setContentLength h l = h.setBytes .packed KnownHeader.contentLength.name (intText l) := by
  have htext : intDigits (Int64.ofInt l) = intText l := by
    rw [intDigits_eq, Int64.toInt_ofInt_of_le (by omega) (by omega), intText, if_neg (by omega)]
    congr 1
    omega
  unfold FileResponse.setContentLength setIntKnown Headers.setBytes
  rw [htext]
  rfl

theorem length_intText {x : Int} (h : x.natAbs < 10 ^ 39) : (intText x).length ≤ 40 := by
  have hdecimal := (length_decimal_le (by decide)).mpr h
  unfold intText
  split
  · rw [List.length_cons]
    omega
  · omega

theorem length_contentTypeFor (lower : Bytes → Bytes) (name : Bytes) :
    (contentTypeFor lower name).length ≤ 64 := by
  have htable : ∀ row ∈ contentTypes, row.2.length ≤ 64 := by decide +kernel
  unfold contentTypeFor
  split
  · dsimp only
    cases hfind : contentTypes.find? fun row =>
        row.1 == lower (name.reverse.takeWhile (· != DOT)).reverse with
    | none => exact Nat.le_of_ble_eq_true rfl
    | some row => exact htable row (List.mem_of_find?_eq_some hfind)
  · exact Nat.le_of_ble_eq_true rfl

/-- The constructor's defaults touch three names only. -/
theorem new_stored {h : Headers} {m : InsertionMap Bytes Bytes} {bytes entries : Nat}
    (hs : Stored h m bytes entries) (body : Bytes) (statusCode : Int) (statusText : Bytes)
    (hbody : body.length < 2 ^ 63) (hbytes : bytes + 300 < 2 ^ 31) (hentries : entries + 3 ≤ 32767) :
    ∃ m', Stored (FileResponse.new body h statusCode statusText).headers m' (bytes + 300) (entries + 3) ∧
      ∀ k, k ≠ ascii "content-type" → k ≠ ascii "connection" → k ≠ ascii "content-length" →
        m'.get? k = m.get? k := by
  have hlength : (intText (body.length : Int)).length ≤ 40 := length_intText (by omega)
  unfold FileResponse.new
  dsimp only
  obtain ⟨m₁, hs₁, hkeep₁⟩ := hs.ite
    ((!isBodilessStatus statusCode && (h.knownIndex .contentType).isNone) = true)
    KnownHeader.contentType.name (ascii "application/octet-stream") (bytes + 100)
    (show bytes + 24 + 12 ≤ _ by omega) (by omega) (by omega)
  generalize (if (!isBodilessStatus statusCode && (h.knownIndex .contentType).isNone) = true then
    h.setBytes .packed KnownHeader.contentType.name (ascii "application/octet-stream") else h) = h₁ at *
  obtain ⟨m₂, hs₂, hkeep₂⟩ := hs₁.ite ((h₁.knownIndex .connection).isNone = true)
    KnownHeader.connection.name (ascii "keep-alive") (bytes + 200)
    (show bytes + 100 + 10 + 10 ≤ _ by omega) (by omega) (by omega)
  have hconnection : h₁.setBytes .packed KnownHeader.connection.name (ascii "keep-alive") =
      h₁.setBytesKnown .packed KnownHeader.connection.name (ascii "keep-alive") (some .connection) := rfl
  rw [hconnection] at hs₂
  generalize (if (h₁.knownIndex .connection).isNone = true then
    h₁.setBytesKnown .packed KnownHeader.connection.name (ascii "keep-alive") (some .connection)
    else h₁) = h₂ at *
  obtain ⟨m₃, hs₃, hkeep₃⟩ := hs₂.ite
    ((!isBodilessStatus statusCode && (h₂.knownIndex .contentLength).isNone) = true)
    KnownHeader.contentLength.name (intText (body.length : Int)) (bytes + 300)
    (show bytes + 200 + _ + 14 ≤ _ by omega) (by omega) (by omega)
  rw [← setContentLength_eq h₂ (by omega) (by omega)] at hs₃
  refine ⟨m₃, hs₃, ?_⟩
  intro k htype hconn hlen
  rw [hkeep₃ k hlen, hkeep₂ k hconn, hkeep₁ k htype]

/-- The headers of a 206 before those of the mount. -/
theorem partial_stored {ct etag cr : Bytes} (text : Bytes) (fd offset l : Int) (hct : ct.length ≤ 64)
    (hetag : etag.length ≤ 100) (hcr : cr.length ≤ 200) (hnonneg : 0 ≤ l) (hlt : l < 2 ^ 63) :
    ∃ m, Refines ((FileResponse.new [] (Headers.ofList ([(KnownHeader.contentType.name, ct),
        (ascii "etag", etag), (ascii "Accept-Ranges", ascii "bytes")] ++ [(ascii "Content-Range", cr)]))
        206 text).setFileBody fd offset l).headers m ∧
      m.get? (ascii "content-range") = some cr ∧
      m.get? (ascii "content-length") = some (intText l) ∧
      m.get? (ascii "cache-control") = none ∧
      m.get? (ascii "content-security-policy") = none := by
  have hlength : (intText l).length ≤ 40 := length_intText (by omega)
  have hgiven := Stored.empty.setBytes KnownHeader.contentType.name ct 100
    (show 0 + ct.length + 12 ≤ 100 by omega) (by decide) (by decide)
  have hgiven := hgiven.setBytes (ascii "etag") etag 300
    (show 100 + etag.length + 4 ≤ 300 by omega) (by decide) (by decide)
  have hgiven := hgiven.setBytes (ascii "Accept-Ranges") (ascii "bytes") 400
    (by decide) (by decide) (by decide)
  have hgiven := hgiven.setBytes (ascii "Content-Range") cr 700
    (show 400 + cr.length + 13 ≤ 700 by omega) (by decide) (by decide)
  obtain ⟨m, hs, hkeep⟩ := new_stored hgiven [] 206 text (by decide) (by decide) (by decide)
  have hwhole := hs.setBytes KnownHeader.contentLength.name (intText l) 1100
    (show 700 + 300 + (intText l).length + 14 ≤ _ by omega) (by decide) (by decide)
  rw [← setContentLength_eq _ hnonneg hlt] at hwhole
  refine ⟨_, hwhole.refines, ?_, ?_, ?_, ?_⟩
  · rw [InsertionMap.get?_set_of_ne _ _ (by decide), hkeep _ (by decide) (by decide) (by decide)]
    exact InsertionMap.get?_set_self _ _ _
  · exact InsertionMap.get?_set_self _ _ _
  · rw [InsertionMap.get?_set_of_ne _ _ (by decide), hkeep _ (by decide) (by decide) (by decide),
      InsertionMap.get?_set_of_ne _ _ (by decide), InsertionMap.get?_set_of_ne _ _ (by decide),
      InsertionMap.get?_set_of_ne _ _ (by decide), InsertionMap.get?_set_of_ne _ _ (by decide)]
    rfl
  · rw [InsertionMap.get?_set_of_ne _ _ (by decide), hkeep _ (by decide) (by decide) (by decide),
      InsertionMap.get?_set_of_ne _ _ (by decide), InsertionMap.get?_set_of_ne _ _ (by decide),
      InsertionMap.get?_set_of_ne _ _ (by decide), InsertionMap.get?_set_of_ne _ _ (by decide)]
    rfl

/-- The fields of `stat` are machine words, and a size is not negative. -/
structure Stat.Words (st : Stat) : Prop where
  size_nonneg : 0 ≤ st.size
  size_lt : st.size < 2 ^ 63
  sec : st.mtimeSec.natAbs ≤ 2 ^ 63
  nsec : st.mtimeNsec.natAbs ≤ 2 ^ 63

namespace StaticFiles

variable (fs : FileSystem) (sf : StaticFiles)

/-! ## The mount's own headers -/

/-- Nothing but headers is added, and the ones there stay. -/
def Adds (r r' : FileResponse) : Prop :=
  ∃ h, r' = { r with headers := h } ∧ Extends r.headers h

theorem forTheFile_adds {r : FileResponse} {m : InsertionMap Bytes Bytes} (hr : Refines r.headers m)
    (hcache : m.get? (ascii "cache-control") = none)
    (hpolicy : m.get? (ascii "content-security-policy") = none) (rel : Bytes) :
    Adds r (sf.forTheFile fs r rel) := by
  have hnone : ∀ key, m.get? (asciiLowercase key) = none → r.headers.find key = none := by
    intro key hkey
    have hget := hr.get key
    rw [hkey, Headers.get, Option.map_eq_none_iff] at hget
    exact hget
  have hcached : ∃ h, (if sf.cacheControl.length > 0 then
      r.setHeader (ascii "cache-control") sf.cacheControl else r) = { r with headers := h } ∧
      Extends r.headers h := by
    split
    · exact ⟨_, rfl, (Extends.refl r.headers).setBytes_new .packed _ (hnone _ hcache)⟩
    · exact ⟨_, rfl, Extends.refl r.headers⟩
  obtain ⟨h, heq, hx⟩ := hcached
  unfold forTheFile
  rw [heq]
  dsimp only
  split
  · refine ⟨_, rfl, ?_⟩
    -- a long `Cache-Control` may hold what reads as the name: it stands behind the base either way
    cases hfind : h.find (ascii "content-security-policy") with
    | none => exact hx.setBytes_new .packed _ hfind
    | some i =>
      exact hx.setBytes_behind .packed _ hfind
        (hx.le_of_find hr (by decide) (hnone (ascii "content-security-policy") hpolicy) hfind)
  · exact ⟨h, rfl, hx⟩

theorem addHeaders_adds {base r : FileResponse} (h : Adds base r) : Adds base (sf.addHeaders r) := by
  unfold addHeaders
  induction sf.headerNames.zip sf.headerValues generalizing r with
  | nil => exact h
  | cons header headers ih =>
    rw [List.foldl_cons]
    split
    · exact ih h
    · next hnew =>
      obtain ⟨hs, rfl, hx⟩ := h
      refine ih ⟨_, rfl, hx.setBytes_new .packed _ ?_⟩
      rwa [Headers.contains, Option.not_isSome_iff_eq_none] at hnew

/-! ## The 206 -/

/-- The headers of a response and the bounds of its file are those of the bytes from `start` to `stop`. -/
structure Agrees (resp : FileResponse) (total start stop : Int) : Prop where
  contentRange : resp.headers.get (ascii "content-range") =
    some (ascii "bytes " ++ intText start ++ ascii "-" ++ intText stop ++ ascii "/" ++ intText total)
  contentLength : resp.headers.get (ascii "content-length") = some (intText (stop - start + 1))
  offset : resp.bodyFdOffset = start
  length : resp.bodyFdLen = stop - start + 1

theorem Adds.agrees {r r' : FileResponse} {m : InsertionMap Bytes Bytes} {total start stop : Int}
    (h : Adds r r') (hr : Refines r.headers m)
    (hrange : m.get? (ascii "content-range") = some
      (ascii "bytes " ++ intText start ++ ascii "-" ++ intText stop ++ ascii "/" ++ intText total))
    (hlength : m.get? (ascii "content-length") = some (intText (stop - start + 1)))
    (hoffset : r.bodyFdOffset = start) (hlen : r.bodyFdLen = stop - start + 1) :
    Agrees r' total start stop := by
  obtain ⟨hs, rfl, hx⟩ := h
  exact ⟨hx.get_eq hr hrange, hx.get_eq hr hlength, hoffset, hlen⟩

/-- A response of another status is not a 206. -/
theorem addHeaders_status {r : FileResponse} (h : r.statusCode ≠ 206) :
    (sf.addHeaders r).statusCode ≠ 206 := by
  rw [(sf.addHeaders_keeps r).2]
  exact h

theorem forTheFile_status (r : FileResponse) (rel : Bytes) :
    (sf.forTheFile fs r rel).statusCode = r.statusCode := by
  unfold forTheFile
  dsimp only
  split <;> split <;> rfl

theorem length_statEtag {st : Stat} (h : st.Words) :
    (statEtag st.size (st.mtimeSec * 1000000000 + st.mtimeNsec)).length ≤ 100 := by
  have hsize := h.size_lt
  have hnonneg := h.size_nonneg
  have hsec := h.sec
  have hnsec := h.nsec
  have hleft : (intText st.size).length ≤ 40 := length_intText (by omega)
  have hright : (intText (st.mtimeSec * 1000000000 + st.mtimeNsec)).length ≤ 40 :=
    length_intText (by omega)
  unfold statEtag
  simp only [List.length_append]
  have hquotes : (ascii "W/\"").length = 3 ∧ (ascii "-").length = 1 ∧ (ascii "\"").length = 1 :=
    ⟨rfl, rfl, rfl⟩
  omega

/-- A 206 opens the file of a range that was read as valid. -/
theorem answerFile_partial {req : HTTPRequest} {fsPath rel : Bytes} {st : Stat} {calls : List FileCall}
    (hst : st.Words) {resp : FileResponse}
    (hresp : (sf.answerFile fs req fsPath rel st.size
      (statEtag st.size (st.mtimeSec * 1000000000 + st.mtimeNsec)) calls).response = some resp)
    (h206 : (sf.addHeaders resp).statusCode = 206) :
    ∃ rangeHdr start stop, req.headers.get (ascii "range") = some rangeHdr ∧
      parseRange rangeHdr st.size = .valid start stop ∧
      Agrees (sf.addHeaders resp) st.size start stop := by
  unfold answerFile at hresp
  have hnot : ∀ r : FileResponse, r.statusCode ≠ 206 → some r = some resp → False := by
    intro r hr heq
    cases heq
    exact sf.addHeaders_status hr h206
  split at hresp
  · exact (hnot _ (by decide) hresp).elim
  · split at hresp
    · refine (hnot _ ?_ hresp).elim
      rw [forTheFile_status]
      exact (by decide : (304 : Int) ≠ 206)
    · dsimp only at hresp
      split at hresp
      · exact (hnot _ (by exact (by decide : (416 : Int) ≠ 206)) hresp).elim
      · next start stop hrange =>
        have hread : ∃ rangeHdr, req.headers.get (ascii "range") = some rangeHdr ∧
            parseRange rangeHdr st.size = .valid start stop := by
          split at hrange
          · next rangeHdr hget =>
            split at hrange
            · exact ⟨rangeHdr, hget, hrange⟩
            · cases hrange
          · cases hrange
        obtain ⟨rangeHdr, hget, hvalid⟩ := hread
        refine ⟨rangeHdr, start, stop, hget, hvalid, ?_⟩
        obtain ⟨spec, -, hserved⟩ := exists_of_valid hst.size_nonneg hvalid
        have hnonneg := hserved.nonneg
        have hordered := hserved.ordered
        have hinside := hserved.inside
        have hsize := hst.size_lt
        unfold openFile at hresp
        dsimp only at hresp
        split at hresp
        · exact (hnot _ (by decide) hresp).elim
        · have hcr : (ascii "bytes " ++ intText start ++ ascii "-" ++ intText stop ++ ascii "/" ++
              intText st.size).length ≤ 200 := by
            have hstart : (intText start).length ≤ 40 := length_intText (by omega)
            have hstop : (intText stop).length ≤ 40 := length_intText (by omega)
            have htotal : (intText st.size).length ≤ 40 := length_intText (by omega)
            have htexts : (ascii "bytes ").length = 6 ∧ (ascii "-").length = 1 ∧ (ascii "/").length = 1 :=
              ⟨rfl, rfl, rfl⟩
            simp only [List.length_append]
            omega
          obtain ⟨m, hr, hrange', hlength, hcache, hpolicy⟩ := partial_stored
            (ascii "Partial Content") (fs.openRead fsPath) start (stop - start + 1)
            (length_contentTypeFor fs.lower rel) (length_statEtag hst) hcr
            (by omega) (by omega)
          cases hresp
          have hadds := sf.addHeaders_adds (forTheFile_adds fs sf hr hcache hpolicy rel)
          exact hadds.agrees hr hrange' hlength rfl rfl
      · have hok : ∀ (l : Int) (calls : List FileCall) (r : FileResponse),
            (sf.openFile fs fsPath rel (statEtag st.size (st.mtimeSec * 1000000000 + st.mtimeNsec)) [] 200
              (ascii "OK") 0 l calls).response = some r → r.statusCode ≠ 206 := by
          intro l calls r hr
          unfold openFile at hr
          dsimp only at hr
          split at hr
          · cases hr
            decide
          · cases hr
            rw [forTheFile_status]
            exact (by decide : (200 : Int) ≠ 206)
        exact (sf.addHeaders_status (hok _ _ _ hresp) h206).elim

/-- **The headers of a 206 and its file bounds agree**, and both are the bytes that its `Range` names. -/
theorem serve_partial (hwords : ∀ path st, fs.stat path = some st → st.Words) {req : HTTPRequest}
    {resp : FileResponse} (hresp : (sf.serve fs req).response = some resp) (h206 : resp.statusCode = 206) :
    ∃ fsPath st rangeHdr start stop spec, fs.stat fsPath = some st ∧
      req.headers.get (ascii "range") = some rangeHdr ∧ Ranges.Names rangeHdr spec ∧
      Ranges.Served spec st.size start stop ∧ Agrees resp st.size start stop := by
  obtain ⟨r, hr, rfl⟩ := Option.map_eq_some_iff.mp hresp
  unfold answer at hr
  split at hr
  · cases hr
  · split at hr
    · cases hr
      exact absurd h206 (sf.addHeaders_status (by decide))
    · next rel hrel fsPath hjoin =>
      dsimp only at hr
      split at hr
      · cases hr
      · next st hst =>
        split at hr
        · cases hr
        · obtain ⟨rangeHdr, start, stop, hget, hvalid, hagrees⟩ :=
            answerFile_partial fs sf (hwords _ _ hst) hr h206
          obtain ⟨spec, hnames, hserved⟩ := exists_of_valid (hwords _ _ hst).size_nonneg hvalid
          exact ⟨_, st, rangeHdr, start, stop, spec, hst, hget, hnames, hserved, hagrees⟩

/-- **Ranges.** A header value is read as it names a range, or as none, except where a start past the
end stands before something that is no last position for it; and the 206 that a mount answers has the
headers and the file bounds of the bytes its value names. -/
theorem ranges_read (hwords : ∀ path st, fs.stat path = some st → st.Words) :
    (∀ value total, 0 ≤ total → (Reads value total (parseRange value total) ↔ ¬Misread value total)) ∧
      ∀ req resp, (sf.serve fs req).response = some resp → resp.statusCode = 206 →
        ∃ fsPath st rangeHdr start stop spec, fs.stat fsPath = some st ∧
          req.headers.get (ascii "range") = some rangeHdr ∧ Ranges.Names rangeHdr spec ∧
          Ranges.Served spec st.size start stop ∧ Agrees resp st.size start stop :=
  ⟨fun value _ htotal => reads_iff value htotal, fun _ _ => serve_partial fs sf hwords⟩

/-- A GET for the last two of a file's three bytes. -/
def lastTwo : HTTPRequest where
  uri := { URI.ofOrigin (ascii "/static/a%2Fb.txt") with path := ascii "/static/a%2Fb.txt" }
  headers := Headers.ofList [(ascii "range", ascii "bytes=-2")]
  method := ascii "GET"

theorem lastTwo_partial :
    Reads (ascii "bytes=2-5") 100 (parseRange (ascii "bytes=2-5") 100) ∧
      ∃ resp start stop spec, ((StaticFiles.new (ascii "/srv/") (ascii "static") [] Headers.empty).serve
          oneFile lastTwo).response = some resp ∧ resp.statusCode = 206 ∧
        Ranges.Names (ascii "bytes=-2") spec ∧ Ranges.Served spec 3 start stop ∧ Agrees resp 3 start stop := by
  have hsize : ∀ path st, oneFile.stat path = some st → st.Words ∧ st.size = 3 := by
    intro path st hst
    simp only [oneFile] at hst
    split at hst
    · cases hst
      exact ⟨⟨by decide, by decide, by decide, by decide⟩, rfl⟩
    · cases hst
  obtain ⟨hreads, hserves⟩ := ranges_read oneFile
    (StaticFiles.new (ascii "/srv/") (ascii "static") [] Headers.empty) fun path st hst => (hsize path st hst).1
  constructor
  · refine (hreads (ascii "bytes=2-5") 100 (by decide)).mpr ?_
    rintro ⟨unit, lo, hi, heq, hunit, -, hdigits, -, hpast, -⟩
    have hsplit : ascii "bytes=" ++ (ascii "2" ++ DASH :: ascii "5") = unit ++ (lo ++ DASH :: hi) := heq
    obtain ⟨rfl, -⟩ := split_unique (by decide) hunit (by decide) (hdigits.not_mem (by decide)) hsplit
    exact absurd hpast (by decide)
  · have hstatus : ((StaticFiles.new (ascii "/srv/") (ascii "static") [] Headers.empty).serve oneFile
        lastTwo).response.map (·.statusCode) = some 206 := by decide +kernel
    obtain ⟨resp, hresp, h206⟩ := Option.map_eq_some_iff.mp hstatus
    obtain ⟨fsPath, st, rangeHdr, start, stop, spec, hst, hget, hnames, hserved, hagrees⟩ :=
      hserves lastTwo resp hresp h206
    have hrange : lastTwo.headers.get (ascii "range") = some (ascii "bytes=-2") := by decide +kernel
    rw [hrange, Option.some.injEq] at hget
    rw [(hsize fsPath st hst).2] at hserved hagrees
    rw [← hget] at hnames
    exact ⟨resp, start, stop, spec, hresp, h206, hnames, hserved, hagrees⟩

/-- A start past the end and a last position below it: 416, though the value names no range. -/
theorem backwards_past_end :
    ¬∀ value total, 0 ≤ total → Reads value total (parseRange value total) := by
  intro h
  have hreads := h (ascii "bytes=200-100") 100 (by decide)
  refine (reads_iff (ascii "bytes=200-100") (by decide)).mp hreads ?_
  exact ⟨ascii "bytes=", ascii "200", ascii "100", by decide, by decide, by decide, by decide, by decide,
    by decide, by decide, by decide⟩

end StaticFiles

end MojoHttp
