import MojoHttp.Hex
import MojoHttp.Json.Strings

/-!
# The JSON escaper (`json_escape.mojo`)

A text is copied in clean runs. The byte that ends a run is looked for 64 lanes at a time, then eight in a word,
then one by one.

* **`lane_swarEscapeMask`** — the mask of a word is exact up to its lowest flagged byte.
* **`findEscape_eq`** — the search finds the first byte that needs an escape.
* **`escapeJsonString_eq`** — so the text is escaped byte by byte, whichever search runs.
* **`escape_round_trip`** — and reads back.
-/

namespace MojoHttp

namespace Json

/-! ## The search -/

def ONES : UInt64 := 0x0101010101010101
def HIGHS : UInt64 := 0x8080808080808080

/-- `_swar_escape_mask`. -/
def swarEscapeMask (w : UInt64) : UInt64 :=
  let q := w ^^^ (ONES * 0x22)
  let b := w ^^^ (ONES * 0x5C)
  let isQuote := (q - ONES) &&& ~~~q
  let isBslash := (b - ONES) &&& ~~~b
  let isCtrl := (w - ONES * 0x20) &&& ~~~w
  (isQuote ||| isBslash ||| isCtrl) &&& HIGHS

/-- `b == 0x22 or b == 0x5C or b < 0x20`. -/
def needsEscape (b : UInt8) : Bool := b == 0x22 || b == 0x5C || decide (b < 0x20)

/-- `reduce_min`. -/
def reduceMin (chunk : Bytes) : UInt8 := chunk.foldl min 0xFF

/-- The loop of `simd_find_escape_char` from offset `i` on; `none` is -1. -/
def simdFindFrom (data : Bytes) : (turns : Nat) → (i : Nat) → Option Nat
  | 0, _ => none
  | turns + 1, i =>
    if i + 64 ≤ data.length then
      let chunk := (data.drop i).take 64
      let hasQuote := reduceMin (chunk.map (· ^^^ 0x22)) == 0
      let hasBslash := reduceMin (chunk.map (· ^^^ 0x5C)) == 0
      let hasCtrl := reduceMin (chunk.map (· &&& 0xE0)) == 0
      if hasQuote || hasBslash || hasCtrl then
        match LaneScan.firstFrom (fun lane => needsEscape (chunk.getD lane 0)) 64 0 with
        | some lane => some (i + lane)
        | none => simdFindFrom data turns (i + 64)
      else simdFindFrom data turns (i + 64)
    else none

/-- `simd_find_escape_char`. -/
def simdFindEscapeChar (data : Bytes) : Option Nat := simdFindFrom data data.length 0

/-- `while j + 8 <= slen`: a byte it found, or the `j` it left with. -/
def swarFindFrom (bytes : Bytes) : (turns : Nat) → (j : Nat) → Nat ⊕ Nat
  | 0, j => .inr j
  | turns + 1, j =>
    if j + 8 ≤ bytes.length then
      let m := swarEscapeMask (loadU64 bytes j)
      if m != 0 then .inl (j + Swar.countTrailingZeros m >>> 3) else swarFindFrom bytes turns (j + 8)
    else .inr j

/-- `for k in range(j, slen)`. -/
def scalarFindFrom (bytes : Bytes) (j : Nat) : Option Nat :=
  LaneScan.firstFrom (fun k => needsEscape (bytes.getD k 0)) (bytes.length - j) j

/-- `found` of a turn that starts at `pos`, relative to it. -/
def findEscape (bytes : Bytes) (pos : Nat) : Option Nat :=
  let remaining := bytes.length - pos
  let found := if remaining ≥ 64 then simdFindEscapeChar (bytes.drop pos) else none
  if found.isNone && remaining % 64 != 0 then
    match swarFindFrom bytes remaining (bytes.length - remaining % 64) with
    | .inl k => some (k - pos)
    | .inr j => (scalarFindFrom bytes j).map (· - pos)
  else found

/-! ## The escaper -/

/-- The escape of a byte that needs one. -/
def escapeOf (c : UInt8) : Bytes :=
  if c == 0x22 then [backslash, 0x22]
  else if c == 0x5C then [backslash, 0x5C]
  else if c == 0x0A then [backslash, 0x6E]
  else if c == 0x0D then [backslash, 0x72]
  else if c == 0x09 then [backslash, 0x74]
  else [backslash, 0x75, 0x30, 0x30, hexNibble (c.toNat >>> 4), hexNibble (c.toNat &&& 0x0F)]

/-- `while pos < slen`, for any search. -/
def escapeFrom (find : Bytes → Nat → Option Nat) (bytes : Bytes) : (turns : Nat) → (pos : Nat) → (out : Bytes) → Bytes
  | 0, _, out => out
  | turns + 1, pos, out =>
    if pos < bytes.length then
      match find bytes pos with
      | none => escapeFrom find bytes turns bytes.length (out ++ bytes.drop pos)
      | some found =>
        let out := out ++ (bytes.drop pos).take found
        let pos := pos + found
        escapeFrom find bytes turns (pos + 1) (out ++ escapeOf (bytes.getD pos 0))
    else out

/-- What `escape_json_string_into` appends, for any search. -/
def escapeWith (find : Bytes → Nat → Option Nat) (s : Bytes) : Bytes :=
  escapeFrom find s (s.length + 1) 0 [quote] ++ [quote]

/-- `escape_json_string`. -/
def escapeJsonString (s : Bytes) : Bytes := escapeWith findEscape s

/-- The search of the byte loop alone. -/
def scalarFind (bytes : Bytes) (pos : Nat) : Option Nat := (scalarFindFrom bytes pos).map (· - pos)

/-! ## The mask of a word -/

theorem lane_splat : ∀ k < 8, Swar.lane ONES k = 1 ∧ Swar.lane (ONES * 0x22) k = 0x22 ∧
    Swar.lane (ONES * 0x5C) k = 0x5C ∧ Swar.lane (ONES * 0x20) k = 0x20 ∧ Swar.lane HIGHS k = 0x80 := by
  decide

/-- A clean byte borrows from no lane above it. -/
theorem clean_byte (b : UInt8) : needsEscape b = false → 1 ≤ b ^^^ 0x22 ∧ 1 ≤ b ^^^ 0x5C ∧ 0x20 ≤ b :=
  forall_byte (P := fun b => needsEscape b = false → 1 ≤ b ^^^ 0x22 ∧ 1 ≤ b ^^^ 0x5C ∧ 0x20 ≤ b)
    (by decide) b

theorem byte_mask (b : UInt8) :
    ((((b ^^^ 0x22) - 1) &&& ~~~(b ^^^ 0x22)) ||| (((b ^^^ 0x5C) - 1) &&& ~~~(b ^^^ 0x5C)) |||
      ((b - 0x20) &&& ~~~b)) &&& 0x80 = if needsEscape b then 0x80 else 0 :=
  forall_byte (P := fun b =>
    ((((b ^^^ 0x22) - 1) &&& ~~~(b ^^^ 0x22)) ||| (((b ^^^ 0x5C) - 1) &&& ~~~(b ^^^ 0x5C)) |||
      ((b - 0x20) &&& ~~~b)) &&& 0x80 = if needsEscape b then 0x80 else 0) (by decide) b

/-- **The mask** is exact in a lane no flagged lane is below. -/
theorem lane_swarEscapeMask {w : UInt64} {k : Nat} (hk : k < 8)
    (hclean : ∀ j < k, needsEscape (Swar.lane w j) = false) :
    Swar.lane (swarEscapeMask w) k = if needsEscape (Swar.lane w k) then 0x80 else 0 := by
  obtain ⟨hones, hquote, hback, hctrl, hhighs⟩ := lane_splat k hk
  have hsub : ∀ (x y : UInt64) (c : UInt8), (∀ j < k, Swar.lane y j = c ∧ c ≤ Swar.lane x j) →
      Swar.lane (x - y) k = Swar.lane x k - Swar.lane y k := by
    intro x y c hle
    apply Swar.lane_sub hk
    intro j hj
    rw [(hle j hj).1]
    exact (hle j hj).2
  have hq := hsub (w ^^^ (ONES * 0x22)) ONES 1 (by
    intro j hj
    obtain ⟨hj1, hj2, -⟩ := lane_splat j (by omega)
    rw [Swar.lane_xor, hj2]
    exact ⟨hj1, (clean_byte _ (hclean j hj)).1⟩)
  have hb := hsub (w ^^^ (ONES * 0x5C)) ONES 1 (by
    intro j hj
    obtain ⟨hj1, -, hj3, -⟩ := lane_splat j (by omega)
    rw [Swar.lane_xor, hj3]
    exact ⟨hj1, (clean_byte _ (hclean j hj)).2.1⟩)
  have hc := hsub w (ONES * 0x20) 0x20 (by
    intro j hj
    obtain ⟨-, -, -, hj4, -⟩ := lane_splat j (by omega)
    exact ⟨hj4, (clean_byte _ (hclean j hj)).2.2⟩)
  unfold swarEscapeMask
  dsimp only
  rw [Swar.lane_and, Swar.lane_or, Swar.lane_or, Swar.lane_and, Swar.lane_and, Swar.lane_and, hq, hb, hc,
    Swar.lane_not _ hk, Swar.lane_not _ hk, Swar.lane_not _ hk, Swar.lane_xor, Swar.lane_xor, hones, hquote, hback,
    hctrl, hhighs]
  exact byte_mask _

/-- The positions of a text that need an escape. -/
def hit (bytes : Bytes) (k : Nat) : Bool := needsEscape (bytes.getD k 0)

/-- A word with no byte to escape has no flag; in another the lowest flag names the first. -/
theorem swar_word {bytes : Bytes} {j : Nat} (h : j + 8 ≤ bytes.length) :
    (LaneScan.firstFrom (hit bytes) 8 j = none → swarEscapeMask (loadU64 bytes j) = 0) ∧
    (∀ p, LaneScan.firstFrom (hit bytes) 8 j = some p → swarEscapeMask (loadU64 bytes j) ≠ 0 ∧
      j + Swar.countTrailingZeros (swarEscapeMask (loadU64 bytes j)) >>> 3 = p) := by
  have hlane : ∀ k < 8, needsEscape (Swar.lane (loadU64 bytes j) k) = hit bytes (j + k) := by
    intro k hk
    rw [lane_loadU64 h hk, hit]
  constructor
  · intro hnone
    have hall := LaneScan.firstFrom_eq_none.mp hnone
    have hclean : ∀ k < 8, needsEscape (Swar.lane (loadU64 bytes j) k) = false := by
      intro k hk
      rw [hlane k hk]
      exact hall (j + k) (by omega) (by omega)
    apply Swar.eq_zero_of_lanes
    intro k hk
    rw [lane_swarEscapeMask hk fun i hi => hclean i (by omega), hclean k hk]
    rfl
  · intro p hsome
    obtain ⟨hlo, hhi, hhit, hmin⟩ := LaneScan.firstFrom_eq_some.mp hsome
    have hclean : ∀ i < p - j, needsEscape (Swar.lane (loadU64 bytes j) i) = false := by
      intro i hi
      rw [hlane i (by omega)]
      exact hmin (j + i) (by omega) (by omega)
    have hlow : ∀ i < p - j, Swar.lane (swarEscapeMask (loadU64 bytes j)) i = 0 := by
      intro i hi
      rw [lane_swarEscapeMask (by omega) fun i' hi' => hclean i' (by omega), hclean i hi]
      rfl
    have hset : Swar.lane (swarEscapeMask (loadU64 bytes j)) (p - j) = 0x80 := by
      rw [lane_swarEscapeMask (by omega) hclean, hlane (p - j) (by omega), show j + (p - j) = p from by omega, hhit]
      rfl
    obtain ⟨hne, hctz⟩ := Swar.countTrailingZeros_of_lane (by omega) hlow hset
    refine ⟨hne, ?_⟩
    rw [hctz, Nat.shiftRight_eq_div_pow]
    omega

/-! ## The search finds the first byte that needs an escape -/

/-- The words: a byte found, or nothing up to where the loop gave up. -/
theorem swarFindFrom_answer (bytes : Bytes) (turns : Nat) {j : Nat} (hj : j ≤ bytes.length) :
    LaneScan.LoopAnswer (hit bytes) bytes.length j (swarFindFrom bytes turns j) := by
  induction turns generalizing j with
  | zero => exact ⟨Nat.le_refl _, hj, rfl⟩
  | succ turns ih =>
    rw [swarFindFrom]
    split
    · next hroom =>
      obtain ⟨hclean, hfound⟩ := swar_word hroom
      have hsplit : LaneScan.firstFrom (hit bytes) (bytes.length - j) j =
          (LaneScan.firstFrom (hit bytes) 8 j).or
            (LaneScan.firstFrom (hit bytes) (bytes.length - (j + 8)) (j + 8)) := by
        rw [← LaneScan.firstFrom_add, show 8 + (bytes.length - (j + 8)) = bytes.length - j from by omega]
      dsimp only
      cases hword : LaneScan.firstFrom (hit bytes) 8 j with
      | none =>
        rw [hword, Option.none_or] at hsplit
        rw [hclean hword, if_neg (by decide)]
        have hnext := ih hroom
        cases hloop : swarFindFrom bytes turns (j + 8) with
        | inl k =>
          rw [hloop] at hnext
          exact hsplit.trans hnext
        | inr j' =>
          rw [hloop] at hnext
          obtain ⟨hle, hhi, hrest⟩ := hnext
          exact ⟨by omega, hhi, hsplit.trans hrest⟩
      | some p =>
        obtain ⟨hne, hctz⟩ := hfound p hword
        rw [if_pos (bne_iff_ne.mpr hne), hctz]
        show LaneScan.firstFrom _ _ _ = some p
        rw [hsplit, hword]
        rfl
    · exact ⟨Nat.le_refl _, hj, rfl⟩

theorem min_le (a b : UInt8) : min a b ≤ a ∧ min a b ≤ b := by
  rw [show min a b = if a ≤ b then a else b from rfl]
  split
  · next h => exact ⟨UInt8.le_refl a, h⟩
  · next h => exact ⟨UInt8.le_of_lt (UInt8.not_le.mp h), UInt8.le_refl b⟩

theorem foldl_min_le (chunk : Bytes) (m : UInt8) :
    chunk.foldl min m ≤ m ∧ ∀ b ∈ chunk, chunk.foldl min m ≤ b := by
  induction chunk generalizing m with
  | nil => exact ⟨UInt8.le_refl m, fun b hb => absurd hb List.not_mem_nil⟩
  | cons c chunk ih =>
    obtain ⟨hseed, hmem⟩ := ih (min m c)
    obtain ⟨hm, hc⟩ := min_le m c
    rw [List.foldl_cons]
    refine ⟨UInt8.le_trans hseed hm, ?_⟩
    intro b hb
    rcases List.mem_cons.mp hb with rfl | hb
    · exact UInt8.le_trans hseed hc
    · exact hmem b hb

/-- A lane that is zero behind `f` is seen by the minimum. -/
theorem reduceMin_map {chunk : Bytes} {f : UInt8 → UInt8} {b : UInt8} (hb : b ∈ chunk) (hzero : f b = 0) :
    (reduceMin (chunk.map f) == 0) = true := by
  have hle := (foldl_min_le (chunk.map f) 0xFF).2 (f b) (List.mem_map_of_mem hb)
  rw [hzero, UInt8.le_iff_toNat_le] at hle
  rw [beq_iff_eq]
  exact UInt8.toNat_inj.mp (Nat.le_zero.mp hle)

theorem needsEscape_lanes (b : UInt8) : needsEscape b = true → b ^^^ 0x22 = 0 ∨ b ^^^ 0x5C = 0 ∨ b &&& 0xE0 = 0 :=
  forall_byte (P := fun b => needsEscape b = true → b ^^^ 0x22 = 0 ∨ b ^^^ 0x5C = 0 ∨ b &&& 0xE0 = 0)
    (by decide) b

/-- The whole vectors of the data: the first byte of theirs that needs an escape. -/
theorem simdFindFrom_eq (data : Bytes) (turns i : Nat) (hturns : (data.length - i) / 64 ≤ turns) :
    simdFindFrom data turns i = LaneScan.firstFrom (hit data) (64 * ((data.length - i) / 64)) i := by
  induction turns generalizing i with
  | zero =>
    rw [Nat.le_zero.mp hturns]
    rfl
  | succ turns ih =>
    rw [simdFindFrom]
    split
    · next hroom =>
      have hcount : 64 * ((data.length - i) / 64) = 64 + 64 * ((data.length - (i + 64)) / 64) := by omega
      have hlane : ∀ lane < 64, needsEscape (((data.drop i).take 64).getD lane 0) = hit data (i + lane) := by
        intro lane hlane
        rw [hit, List.getD_eq_getElem?_getD, List.getD_eq_getElem?_getD, List.getElem?_take_of_lt hlane,
          List.getElem?_drop]
      have hvector : LaneScan.firstFrom (fun lane => needsEscape (((data.drop i).take 64).getD lane 0)) 64 0 =
          (LaneScan.firstFrom (hit data) 64 i).map (· - i) := by
        have hlanes : LaneScan.firstFrom (fun lane => needsEscape (((data.drop i).take 64).getD lane 0)) 64 0 =
            LaneScan.firstFrom (fun lane => hit data (i + lane)) 64 0 :=
          LaneScan.firstFrom_congr fun lane _ hlt => hlane lane (by omega)
        rw [hlanes, LaneScan.firstFrom_shift, Nat.add_zero]
      have hnext := ih (i + 64) (by omega)
      dsimp only
      rw [hcount, LaneScan.firstFrom_add, hvector, hnext]
      cases hfirst : LaneScan.firstFrom (hit data) 64 i with
      | none =>
        rw [Option.none_or]
        split
        · rfl
        · rfl
      | some p =>
        obtain ⟨hlo, hhi, hhit, -⟩ := LaneScan.firstFrom_eq_some.mp hfirst
        have hneeds := hlane (p - i) (by omega)
        rw [show i + (p - i) = p from by omega, hhit] at hneeds
        have hmem : ((data.drop i).take 64).getD (p - i) 0 ∈ (data.drop i).take 64 := by
          have hlt : p - i < ((data.drop i).take 64).length := by
            rw [List.length_take, List.length_drop]
            omega
          rw [List.getD_eq_getElem _ _ hlt]
          exact List.getElem_mem hlt
        have hseen : (reduceMin (((data.drop i).take 64).map (· ^^^ 0x22)) == 0 ||
            reduceMin (((data.drop i).take 64).map (· ^^^ 0x5C)) == 0 ||
            reduceMin (((data.drop i).take 64).map (· &&& 0xE0)) == 0) = true := by
          rw [Bool.or_eq_true, Bool.or_eq_true]
          rcases needsEscape_lanes _ hneeds with h | h | h
          · exact Or.inl (Or.inl (reduceMin_map (f := (· ^^^ 0x22)) hmem h))
          · exact Or.inl (Or.inr (reduceMin_map (f := (· ^^^ 0x5C)) hmem h))
          · exact Or.inr (reduceMin_map (f := (· &&& 0xE0)) hmem h)
        rw [if_pos hseen, Option.some_or]
        show some (i + (p - i)) = some p
        rw [show i + (p - i) = p from by omega]
    · next hroom =>
      rw [show (data.length - i) / 64 = 0 from by omega]
      rfl

/-- The search behind the whole vectors: the words, then what they leave. -/
theorem tailFind_eq {bytes : Bytes} {j : Nat} (hj : j ≤ bytes.length) (turns pos : Nat) :
    (match swarFindFrom bytes turns j with
      | .inl k => some (k - pos)
      | .inr j => (scalarFindFrom bytes j).map (· - pos)) =
      (LaneScan.firstFrom (hit bytes) (bytes.length - j) j).map (· - pos) := by
  have hanswer := swarFindFrom_answer bytes turns hj
  cases hloop : swarFindFrom bytes turns j with
  | inl k =>
    rw [hloop] at hanswer
    have hfirst : LaneScan.firstFrom (hit bytes) (bytes.length - j) j = some k := hanswer
    rw [hfirst]
    rfl
  | inr j' =>
    rw [hloop] at hanswer
    obtain ⟨-, -, hrest⟩ := hanswer
    rw [hrest]
    rfl

theorem simdFindEscapeChar_drop (bytes : Bytes) (pos : Nat) :
    simdFindEscapeChar (bytes.drop pos) =
      (LaneScan.firstFrom (hit bytes) (64 * ((bytes.length - pos) / 64)) pos).map (· - pos) := by
  have hdrop : ∀ k, hit (bytes.drop pos) k = hit bytes (pos + k) := by
    intro k
    rw [hit, hit, List.getD_eq_getElem?_getD, List.getD_eq_getElem?_getD, List.getElem?_drop]
  have hshift := LaneScan.firstFrom_shift (hit bytes) pos (64 * ((bytes.length - pos) / 64)) 0
  rw [Nat.add_zero] at hshift
  rw [simdFindEscapeChar, simdFindFrom_eq _ _ _ (Nat.div_le_self _ _ |>.trans (Nat.sub_le _ _)), Nat.sub_zero,
    List.length_drop, ← hshift]
  exact LaneScan.firstFrom_congr fun k _ _ => hdrop k

/-- **The search** finds what the byte loop alone finds. -/
theorem findEscape_eq {bytes : Bytes} {pos : Nat} (hpos : pos ≤ bytes.length) :
    findEscape bytes pos = scalarFind bytes pos := by
  have hvectors : (if bytes.length - pos ≥ 64 then simdFindEscapeChar (bytes.drop pos) else none) =
      (LaneScan.firstFrom (hit bytes) (64 * ((bytes.length - pos) / 64)) pos).map (· - pos) := by
    split
    · exact simdFindEscapeChar_drop bytes pos
    · next hshort =>
      rw [show (bytes.length - pos) / 64 = 0 from by omega]
      rfl
  have htail := tailFind_eq (show bytes.length - (bytes.length - pos) % 64 ≤ bytes.length from Nat.sub_le _ _)
    (bytes.length - pos) pos
  have hsplit : LaneScan.firstFrom (hit bytes) (bytes.length - pos) pos =
      (LaneScan.firstFrom (hit bytes) (64 * ((bytes.length - pos) / 64)) pos).or
        (LaneScan.firstFrom (hit bytes) ((bytes.length - pos) % 64)
          (bytes.length - (bytes.length - pos) % 64)) := by
    conv_lhs => rw [← Nat.div_add_mod (bytes.length - pos) 64, LaneScan.firstFrom_add]
    rw [show pos + 64 * ((bytes.length - pos) / 64) = bytes.length - (bytes.length - pos) % 64 from by omega]
  rw [show bytes.length - (bytes.length - (bytes.length - pos) % 64) = (bytes.length - pos) % 64 from by omega] at htail
  have hscalar : scalarFind bytes pos =
      (LaneScan.firstFrom (hit bytes) (bytes.length - pos) pos).map (· - pos) := rfl
  unfold findEscape
  dsimp only
  rw [hvectors, htail, hscalar, hsplit]
  cases LaneScan.firstFrom (hit bytes) (64 * ((bytes.length - pos) / 64)) pos with
  | some k => rfl
  | none =>
    rw [Option.none_or, Option.map_none, Option.isNone_none, Bool.true_and]
    split
    · rfl
    · next hnone =>
      rw [bne_iff_ne, ne_eq, not_not] at hnone
      rw [hnone]
      rfl

/-! ## Byte by byte -/

/-- A byte of the text between the quotes. -/
def escapeByte (b : UInt8) : Bytes := if needsEscape b then escapeOf b else [b]

theorem flatMap_escapeByte_clean {bs : Bytes} (h : ∀ b ∈ bs, needsEscape b = false) : bs.flatMap escapeByte = bs := by
  induction bs with
  | nil => rfl
  | cons b bs ih =>
    rw [List.flatMap_cons, ih fun x hx => h x (List.mem_cons_of_mem _ hx), escapeByte, h b List.mem_cons_self]
    rfl

/-- What the byte loop says of the text behind `pos`. -/
theorem scalarFind_split {bytes : Bytes} {pos : Nat} (hpos : pos ≤ bytes.length) :
    (scalarFind bytes pos = none ∧ ∀ b ∈ bytes.drop pos, needsEscape b = false) ∨
    (∃ found, scalarFind bytes pos = some found ∧ pos + found < bytes.length ∧
      (∀ b ∈ (bytes.drop pos).take found, needsEscape b = false) ∧
      needsEscape (bytes.getD (pos + found) 0) = true ∧
      bytes.drop pos = (bytes.drop pos).take found ++ bytes.getD (pos + found) 0 :: bytes.drop (pos + found + 1)) := by
  have hget : ∀ {k : Nat} (hk : k < bytes.length), bytes.getD k 0 = bytes[k] := fun hk =>
    List.getD_eq_getElem _ _ hk
  cases hfirst : LaneScan.firstFrom (hit bytes) (bytes.length - pos) pos with
  | none =>
    left
    refine ⟨congrArg (Option.map (· - pos)) hfirst, ?_⟩
    intro b hb
    obtain ⟨k, hk, hkb⟩ := List.mem_iff_getElem.mp hb
    rw [List.length_drop] at hk
    rw [List.getElem_drop] at hkb
    have hclean := LaneScan.firstFrom_eq_none.mp hfirst (pos + k) (by omega) (by omega)
    rw [hit, hget (by omega), hkb] at hclean
    exact hclean
  | some p =>
    right
    obtain ⟨hlo, hhi, hhit, hmin⟩ := LaneScan.firstFrom_eq_some.mp hfirst
    have hp : pos + (p - pos) = p := by omega
    refine ⟨p - pos, congrArg (Option.map (· - pos)) hfirst, by omega, ?_, ?_, ?_⟩
    · intro b hb
      obtain ⟨k, hk, hkb⟩ := List.mem_iff_getElem.mp hb
      rw [List.length_take, List.length_drop] at hk
      rw [List.getElem_take, List.getElem_drop] at hkb
      have hclean := hmin (pos + k) (by omega) (by omega)
      rw [hit, hget (by omega), hkb] at hclean
      exact hclean
    · rw [hp]
      exact hhit
    · conv_lhs => rw [← List.take_append_drop (p - pos) (bytes.drop pos)]
      rw [List.drop_drop, hp, hget (by omega), ← List.drop_eq_getElem_cons (by omega)]

/-- The loop from `pos` on, with the byte loop's search. -/
theorem escapeFrom_scalar (bytes : Bytes) (turns pos : Nat) (out : Bytes) (hpos : pos ≤ bytes.length)
    (hturns : bytes.length - pos < turns) :
    escapeFrom scalarFind bytes turns pos out = out ++ (bytes.drop pos).flatMap escapeByte := by
  induction turns generalizing pos out with
  | zero => omega
  | succ turns ih =>
    rw [escapeFrom]
    by_cases hlt : pos < bytes.length
    · rw [if_pos hlt]
      rcases scalarFind_split hpos with ⟨hnone, hclean⟩ | ⟨found, hfound, hin, hclean, hneeds, hsplit⟩
      · rw [hnone]
        dsimp only
        rw [ih bytes.length _ (Nat.le_refl _) (by omega), List.drop_length, List.flatMap_nil, List.append_nil,
          flatMap_escapeByte_clean hclean]
      · rw [hfound]
        dsimp only
        rw [ih (pos + found + 1) _ (by omega) (by omega)]
        conv_rhs => rw [hsplit]
        rw [List.flatMap_append, List.flatMap_cons, flatMap_escapeByte_clean hclean, escapeByte, if_pos hneeds]
        simp only [List.append_assoc]
    · have hend : bytes.drop pos = [] := List.drop_eq_nil_of_le (by omega)
      rw [if_neg hlt, hend, List.flatMap_nil, List.append_nil]

/-- Two searches that agree escape alike. -/
theorem escapeFrom_congr {find find' : Bytes → Nat → Option Nat} {bytes : Bytes}
    (h : ∀ pos ≤ bytes.length, find bytes pos = find' bytes pos) (turns pos : Nat) (out : Bytes) :
    escapeFrom find bytes turns pos out = escapeFrom find' bytes turns pos out := by
  induction turns generalizing pos out with
  | zero => rfl
  | succ turns ih =>
    rw [escapeFrom, escapeFrom]
    by_cases hlt : pos < bytes.length
    · rw [if_pos hlt, if_pos hlt, h pos (Nat.le_of_lt hlt)]
      cases find' bytes pos with
      | none => exact ih _ _
      | some found => exact ih _ _
    · rw [if_neg hlt, if_neg hlt]

/-- **The vector search and the byte loop** write the same text. -/
theorem escapeWith_findEscape (s : Bytes) : escapeWith findEscape s = escapeWith scalarFind s := by
  rw [escapeWith, escapeWith, escapeFrom_congr fun pos hpos => findEscape_eq hpos]

/-- **The text is escaped byte by byte.** -/
theorem escapeJsonString_eq (s : Bytes) : escapeJsonString s = quote :: (s.flatMap escapeByte ++ [quote]) := by
  rw [escapeJsonString, escapeWith_findEscape, escapeWith, escapeFrom_scalar s _ 0 _ (Nat.zero_le _) (by omega)]
  rfl

/-! ## The literal -/

theorem isHexDigit_nibbles : ∀ n < 0x20, Rfc8259.isHexDigit (hexNibble (n >>> 4)) = true ∧
    Rfc8259.isHexDigit (hexNibble (n &&& 0x0F)) = true := by
  decide

/-- A control's code unit. -/
def controlUnit (n : Nat) (h : n < 0x20) : Rfc8259.CodeUnit where
  d0 := ⟨0x30, Eq.refl true⟩
  d1 := ⟨0x30, Eq.refl true⟩
  d2 := ⟨hexNibble (n >>> 4), (isHexDigit_nibbles n h).1⟩
  d3 := ⟨hexNibble (n &&& 0x0F), (isHexDigit_nibbles n h).2⟩

theorem value_controlUnit : ∀ n, (h : n < 0x20) → (controlUnit n h).value = n := by
  decide

theorem text_controlUnit {n : Nat} (h : n < 0x20) (items : List Rfc8259.Item) :
    Rfc8259.text (.unit (controlUnit n h) :: items) = (Rfc8259.text items).map (Char.ofNat n :: ·) := by
  have hvalue := value_controlUnit n h
  have hhigh : (controlUnit n h).isHigh = false := by
    rw [Rfc8259.CodeUnit.isHigh, hvalue, decide_eq_false (by omega)]
    rfl
  have hlow : (controlUnit n h).isLow = false := by
    rw [Rfc8259.CodeUnit.isLow, hvalue, decide_eq_false (by omega)]
    rfl
  rw [Rfc8259.text.eq_def]
  dsimp only
  rw [hhigh, hlow, if_neg Bool.false_ne_true, if_neg Bool.false_ne_true, Rfc8259.CodeUnit.char, hvalue]

/-- **One character**: its escaped bytes are an item that stands for it. -/
theorem exists_item (c : Char) : ∃ item : Rfc8259.Item,
    item.spell = (String.utf8EncodeChar c).flatMap escapeByte ∧
      ∀ items, Rfc8259.text (item :: items) = (Rfc8259.text items).map (c :: ·) := by
  have hself : Char.ofNat c.toNat = c := Char.ofNat_toNat c
  by_cases hun : Rfc8259.isUnescaped c = true
  · -- a character that stands for itself: none of its bytes is escaped
    refine ⟨.char c hun, ?_, fun items => by rw [Rfc8259.text]⟩
    have hclean : ∀ b ∈ String.utf8EncodeChar c, needsEscape b = false := by
      intro b hb
      obtain ⟨hquote, hback, hctrl⟩ := Rfc8259.unescaped_bytes hun b hb
      rw [needsEscape, beq_eq_false_iff_ne.mpr hquote, beq_eq_false_iff_ne.mpr hback,
        decide_eq_false (UInt8.not_lt.mpr hctrl)]
      rfl
    rw [flatMap_escapeByte_clean hclean]
    rfl
  · have hascii : c.toNat < 0x80 := by
      simp only [Rfc8259.isUnescaped, Bool.and_eq_true, decide_eq_true_eq, bne_iff_ne, ne_eq] at hun
      omega
    rw [Rfc8259.utf8EncodeChar_ascii hascii, List.flatMap_cons, List.flatMap_nil, List.append_nil]
    have hshort : ∀ e : Rfc8259.Escape, c = e.char →
        escapeByte (UInt8.ofNat e.char.toNat) = [backslash, e.letter] →
        ∃ item : Rfc8259.Item, item.spell = escapeByte (UInt8.ofNat c.toNat) ∧
          ∀ items, Rfc8259.text (item :: items) = (Rfc8259.text items).map (c :: ·) := by
      intro e hc hbytes
      exact ⟨.escape e, by rw [hc, hbytes]; rfl, fun items => by rw [Rfc8259.text, hc]⟩
    by_cases hquote : c.toNat = 0x22
    · exact hshort .quotationMark (by rw [← hself, hquote]; rfl) (by decide)
    by_cases hback : c.toNat = 0x5C
    · exact hshort .reverseSolidus (by rw [← hself, hback]; rfl) (by decide)
    by_cases hline : c.toNat = 0x0A
    · exact hshort .lineFeed (by rw [← hself, hline]; rfl) (by decide)
    by_cases hreturn : c.toNat = 0x0D
    · exact hshort .carriageReturn (by rw [← hself, hreturn]; rfl) (by decide)
    by_cases htab : c.toNat = 0x09
    · exact hshort .tab (by rw [← hself, htab]; rfl) (by decide)
    have hctrl : c.toNat < 0x20 := by
      simp only [Rfc8259.isUnescaped, Bool.and_eq_true, decide_eq_true_eq, bne_iff_ne, ne_eq] at hun
      omega
    refine ⟨.unit (controlUnit c.toNat hctrl), ?_, fun items => by rw [text_controlUnit hctrl, hself]⟩
    have hunit : ∀ n < 0x20, n ≠ 0x0A → n ≠ 0x0D → n ≠ 0x09 → escapeByte (UInt8.ofNat n) =
        [backslash, 0x75, 0x30, 0x30, hexNibble (n >>> 4), hexNibble (n &&& 0x0F)] := by
      decide
    exact (hunit c.toNat hctrl hline hreturn htab).symm

/-- **A text of characters** is escaped to a literal that stands for it. -/
theorem exists_literal (cs : List Char) : ∃ items, escapeJsonString (Rfc8259.utf8 cs) = Rfc8259.literal items ∧
    Rfc8259.text items = some cs := by
  have hitems : ∃ items, Rfc8259.spell items = (Rfc8259.utf8 cs).flatMap escapeByte ∧
      Rfc8259.text items = some cs := by
    induction cs with
    | nil => exact ⟨[], rfl, by rw [Rfc8259.text]⟩
    | cons c cs ih =>
      obtain ⟨items, hspell, htext⟩ := ih
      obtain ⟨item, hbytes, hitem⟩ := exists_item c
      refine ⟨item :: items, ?_, by rw [hitem, htext]; rfl⟩
      rw [Rfc8259.spell_cons, hbytes, hspell, ← List.flatMap_append]
      rfl
  obtain ⟨items, hspell, htext⟩ := hitems
  exact ⟨items, by rw [escapeJsonString_eq, Rfc8259.literal, hspell], htext⟩

/-- No control is left in what the escaper writes. -/
theorem escapeJsonString_printable (s : Bytes) : ∀ b ∈ escapeJsonString s, 0x20 ≤ b := by
  have hbyte : ∀ c : UInt8, ∀ b ∈ escapeByte c, 0x20 ≤ b :=
    forall_byte (P := fun c => ∀ b ∈ escapeByte c, 0x20 ≤ b) (by decide)
  intro b hb
  rw [escapeJsonString_eq] at hb
  rcases List.mem_cons.mp hb with rfl | hb
  · decide
  rcases List.mem_append.mp hb with hb | hb
  · obtain ⟨c, -, hc⟩ := List.mem_flatMap.mp hb
    exact hbyte c b hc
  · rw [List.mem_singleton.mp hb]
    decide

/-- **JSON strings round trip.** A UTF-8 text is escaped to a literal that stands for it, without raw controls and
whichever search runs, and the reader returns the text. Of any literal whose surrogates are paired it returns the
text the literal stands for. -/
theorem escape_round_trip :
    (∀ cs : List Char,
      (∃ items, escapeJsonString (Rfc8259.utf8 cs) = Rfc8259.literal items ∧ Rfc8259.text items = some cs) ∧
      (∀ b ∈ escapeJsonString (Rfc8259.utf8 cs), 0x20 ≤ b) ∧
      escapeJsonString (Rfc8259.utf8 cs) = escapeWith scalarFind (Rfc8259.utf8 cs) ∧
      ∀ body field rest : Bytes,
        findValueStart body field = some (escapeJsonString (Rfc8259.utf8 cs) ++ rest) →
          parseJsonString body field = some (Rfc8259.utf8 cs)) ∧
    (∀ items cs, Rfc8259.text items = some cs → ∀ body field rest : Bytes,
      findValueStart body field = some (Rfc8259.literal items ++ rest) →
        parseJsonString body field = some (Rfc8259.utf8 cs)) := by
  have hread : ∀ items cs, Rfc8259.text items = some cs → ∀ body field rest : Bytes,
      findValueStart body field = some (Rfc8259.literal items ++ rest) →
        parseJsonString body field = some (Rfc8259.utf8 cs) := by
    intro items cs htext body field rest hfound
    rw [parseJsonString_of_found hfound, htext]
    rfl
  refine ⟨?_, hread⟩
  intro cs
  obtain ⟨items, hliteral, htext⟩ := exists_literal cs
  refine ⟨⟨items, hliteral, htext⟩, escapeJsonString_printable _, escapeWith_findEscape _, ?_⟩
  intro body field rest hfound
  rw [hliteral] at hfound
  exact hread items cs htext body field rest hfound

/-- The two code units of one surrogate pair. -/
def grin : List Rfc8259.Item :=
  [.unit ⟨⟨0x44, Eq.refl true⟩, ⟨0x38, Eq.refl true⟩, ⟨0x33, Eq.refl true⟩, ⟨0x44, Eq.refl true⟩⟩,
    .unit ⟨⟨0x44, Eq.refl true⟩, ⟨0x45, Eq.refl true⟩, ⟨0x30, Eq.refl true⟩, ⟨0x30, Eq.refl true⟩⟩]

/-- A quote and a line end, escaped and read back out of an object; and a surrogate pair. -/
theorem escape_round_trip_pair :
    parseJsonString (ascii "\x7b\"k\": \"a\\\"\\n\"\x7d") (ascii "k") = some (Rfc8259.utf8 ['a', '"', '\n']) ∧
      parseJsonString (ascii "\x7b\"k\":\"\\uD83D\\uDE00\"\x7d") (ascii "k") =
        some (Rfc8259.utf8 [Char.ofNat 0x1F600]) := by
  have hquoted : findValueStart (ascii "\x7b\"k\": \"a\\\"\\n\"\x7d") (ascii "k") =
      some (escapeJsonString (Rfc8259.utf8 ['a', '"', '\n']) ++ ascii "\x7d") := by
    rw [escapeJsonString_eq]
    decide +kernel
  have htext : Rfc8259.text grin = some [Char.ofNat 0x1F600] := by decide +kernel
  have hpair : findValueStart (ascii "\x7b\"k\":\"\\uD83D\\uDE00\"\x7d") (ascii "k") =
      some (Rfc8259.literal grin ++ ascii "\x7d") := by decide +kernel
  refine ⟨(escape_round_trip.1 ['a', '"', '\n']).2.2.2 _ _ (ascii "\x7d") hquoted, ?_⟩
  exact escape_round_trip.2 grin _ htext _ _ (ascii "\x7d") hpair

end Json

end MojoHttp
