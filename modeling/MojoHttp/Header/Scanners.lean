import MojoHttp.Lib.CheckedLoads
import MojoHttp.Http.Parsing
import MojoHttp.Header.HeadEnd
import MojoHttp.Header.LineBytes

/-!
# The scanners, load by load

The models of `Http.Parsing`, `Header.HeadEnd` and `Header.LineBytes` ask positions of a buffer.
The code loads vectors of it: sixty-four lanes, sixteen, overlapping eights and fours that end
at the last byte, four shifted loads compared at once. Here each scanner is spelled with its
loads, checked against the bytes it was given, and each is its model.

* **`findFieldEnd_eq` / `findStop_eq` / `allTchar_eq`** — the tokenizer's.
* **`findHeaderEnd_eq` / `holdsBareLf_eq`** — the two that resume; the start is any integer.
* **`spanBreaksHeaderLine_eq` / `headerValueKind_eq`** — the two over a whole span.
* **`scanners_are_byte_walks`** — what each answers, a byte at a time.
-/

namespace MojoHttp.Scanners

open BytesConstant LaneScan CrlfText CheckedLoads

/-- What a scan answers, unless one of its loads leaves the readable bytes. -/
abbrev Checked := Option

/-! ## `_find_field_end`, `_find_stop`, `_all_tchar` -/

def fieldEndLanes (chunk : Bytes) : List Bool :=
  chunk.map fun c => (c < 0x20 && c != TAB) || c == 0x7F

def stopLanes (stop : UInt8) (chunk : Bytes) : List Bool :=
  chunk.map fun c => (c < 0x20 || c ≥ 0x7F) || c == stop

def nonTcharLanes (chunk : Bytes) : List Bool := chunk.map isNonTchar

/-- The three loops of a search: vectors of 64, vectors of 16, and the bytes left, which are
asked the tail's own predicate. -/
def scanWide (lanes : Bytes → List Bool) (tail : UInt8 → Bool) (ptr : Bytes) :
    Checked (Option Nat) := do
  let length := ptr.length
  match ← vectorLoop 64 (fun i => i + 64 ≤ length) (fun i => (load ptr 64 i).map lanes)
      (length + 1) 0 with
  | .inl k => some (some k)
  | .inr i =>
    match ← vectorLoop 16 (fun i => i + 16 ≤ length) (fun i => (load ptr 16 i).map lanes)
        (length + 1) i with
    | .inl k => some (some k)
    | .inr i => byteLoop (fun i => (loadOne ptr i).map tail) (length - i) i

/-- `_find_field_end`, of the `length` bytes at `ptr`. -/
def findFieldEnd (ptr : Bytes) : Checked (Option Nat) :=
  scanWide fieldEndLanes (fun b => (b < 0x20 && b != TAB) || b == 0x7F) ptr

/-- `_find_stop`. -/
def findStop (ptr : Bytes) (stop : UInt8) : Checked (Option Nat) :=
  scanWide (stopLanes stop) (fun b => b < 0x20 || b ≥ 0x7F || b == stop) ptr

/-- `_all_tchar`: the first `n` of the readable bytes at `ptr`. -/
def allTchar (ptr : Bytes) (n : Nat) : Checked Bool := do
  match ← vectorLoop 16 (fun i => decide (i < n) && decide (i + 16 ≤ ptr.length))
      (fun i => (load ptr 16 i).map nonTcharLanes) (ptr.length + 1) 0 with
  | .inl k => some (decide (n ≤ k))
  | .inr i =>
    let refused ← byteLoop (fun i => (loadOne ptr i).map fun b => !isTokenChar b) (n - i) i
    some refused.isNone

/-! ## `find_header_end` -/

/-- The four shifted loads, each XORed with its byte, ORed together. -/
def combinedLanes (buffer : Bytes) (i : Nat) : Checked Bytes := do
  let v0 ← load buffer 64 i
  let v1 ← load buffer 64 (i + 1 : Nat)
  let v2 ← load buffer 64 (i + 2 : Nat)
  let v3 ← load buffer 64 (i + 3 : Nat)
  some (List.zipWith (· ||| ·)
    (List.zipWith (· ||| ·)
      (List.zipWith (· ||| ·) (v0.map (· ^^^ CR)) (v1.map (· ^^^ LF))) (v2.map (· ^^^ CR)))
    (v3.map (· ^^^ LF)))

/-- `while i + 67 <= buf_len`: the answer, or the `i` the loop left with. `_first_lane` is -1
where there is no lane. -/
def headerEndVectors (buffer : Bytes) : (fuel i : Nat) → Checked (Nat ⊕ Nat)
  | 0, _ => none
  | fuel + 1, i =>
    if i + 67 ≤ buffer.length then do
      let combined ← combinedLanes buffer i
      if reduceMin combined = 0 then
        match firstLane (combined.map (· == 0)) with
        | some lane => some (.inl (i + lane + 4))
        | none => some (.inl (i + 3))
      else headerEndVectors buffer fuel (i + 64)
    else some (.inr i)

/-- The scalar tail's test: each byte is read only where those before it matched. -/
def emptyLineHere (buffer : Bytes) (i : Nat) : Checked Bool := do
  if (← loadOne buffer i) != CR then some false
  else if (← loadOne buffer (i + 1 : Nat)) != LF then some false
  else if (← loadOne buffer (i + 2 : Nat)) != CR then some false
  else some ((← loadOne buffer (i + 3 : Nat)) == LF)

/-- `find_header_end`. -/
def findHeaderEnd (buffer : Bytes) (searchStart : Int) : Checked (Option Nat) :=
  if buffer.length < 4 then some none
  else do
    let actualStart := (max (searchStart - 3) 0).toNat
    match ← headerEndVectors buffer (buffer.length + 1) actualStart with
    | .inl answer => some (some answer)
    | .inr i =>
      let found ← byteLoop (emptyLineHere buffer) (buffer.length - 3 - i) i
      some (found.map (· + 4))

/-! ## `holds_bare_lf` -/

/-- The two loads of a turn, the second one byte back. -/
def bareLfLanes (buffer : Bytes) (i : Nat) : Checked (List Bool) := do
  let cur ← load buffer 64 i
  let prev ← load buffer 64 ((i : Int) - 1)
  some (List.zipWith (fun c p => c == LF && p != CR) cur prev)

def bareLfHere (buffer : Bytes) (i : Nat) : Checked Bool := do
  if (← loadOne buffer i) != LF then some false
  else some ((← loadOne buffer ((i : Int) - 1)) != CR)

/-- The scan of `holds_bare_lf` from a position behind the first byte on. -/
def bareLfFrom (buffer : Bytes) (i : Nat) : Checked Bool := do
  let n := buffer.length
  match ← vectorLoop 64 (fun i => i + 64 ≤ n) (bareLfLanes buffer) (n + 1) i with
  | .inl _ => some true
  | .inr i =>
    let found ← byteLoop (bareLfHere buffer) (n - i) i
    some found.isSome

/-- `holds_bare_lf`. -/
def holdsBareLf (buffer : Bytes) (start : Int) : Checked Bool :=
  let i := (if start > 0 then start else 0).toNat
  if i ≥ buffer.length then some false
  else if i = 0 then do
    if (← loadOne buffer 0) == LF then some true else bareLfFrom buffer 1
  else bareLfFrom buffer i

/-! ## `span_breaks_header_line` and `header_value_kind` -/

/-- `while i + 16 <= n` of `span_breaks_header_line`; `some none` is its `return True`. -/
def breaksChunks (s : Bytes) : (fuel i : Nat) → Checked (Option Nat)
  | 0, _ => none
  | fuel + 1, i =>
    if i + 16 ≤ s.length then do
      if breaksLineLanes (← load s 16 i) then some none else breaksChunks s fuel (i + 16)
    else some (some i)

/-- Two loads of `W`, one that starts at the first byte and one that ends at the last. -/
def breaksTwice (s : Bytes) (W : Nat) : Checked Bool := do
  if breaksLineLanes (← load s W 0) then some true
  else some (breaksLineLanes (← load s W ((s.length : Int) - W)))

/-- `span_breaks_header_line`. -/
def spanBreaksHeaderLine (s : Bytes) : Checked Bool :=
  let n := s.length
  if n ≥ 16 then do
    match ← breaksChunks s (n + 1) 0 with
    | none => some true
    | some i =>
      if i < n then some (breaksLineLanes (← load s 16 ((n : Int) - 16))) else some false
  else if n ≥ 8 then breaksTwice s 8
  else if n ≥ 4 then breaksTwice s 4
  else do
    let found ← byteLoop
      (fun i => (loadOne s i).map fun c => c == 0x0D || c == 0x0A || c == 0x00) n 0
    some found.isSome

/-- `while i + 16 <= n` of `header_value_kind`; an error is its `return k`. -/
def valueChunks (s : Bytes) : (fuel i kind : Nat) → Checked (Except Nat (Nat × Nat))
  | 0, _, _ => none
  | fuel + 1, i, kind =>
    if i + 16 ≤ s.length then do
      let k := valueLanes (← load s 16 i)
      if k = HEADER_VALUE_BREAKS then some (.error k)
      else valueChunks s fuel (i + 16) (max kind k)
    else some (.ok (i, kind))

def valueTwice (s : Bytes) (W : Nat) : Checked Nat := do
  some (max (valueLanes (← load s W 0)) (valueLanes (← load s W ((s.length : Int) - W))))

/-- `for i in range(n)` of `header_value_kind`, with `left` turns to go. -/
def shortKind (s : Bytes) : (left i kind : Nat) → Checked Nat
  | 0, _, kind => some kind
  | left + 1, i, kind => do
    let c ← loadOne s i
    if c == 0x0D || c == 0x0A || c == 0x00 then some HEADER_VALUE_BREAKS
    else shortKind s left (i + 1) (if c ≥ 0x80 then HEADER_VALUE_HIGH else kind)

/-- `header_value_kind`. -/
def headerValueKind (s : Bytes) : Checked Nat :=
  let n := s.length
  if n ≥ 16 then do
    match ← valueChunks s (n + 1) 0 HEADER_VALUE_ASCII with
    | .error k => some k
    | .ok (i, kind) =>
      if i < n then some (max kind (valueLanes (← load s 16 ((n : Int) - 16)))) else some kind
  else if n ≥ 8 then valueTwice s 8
  else if n ≥ 4 then valueTwice s 4
  else shortKind s n 0 HEADER_VALUE_ASCII

/-! ## The tokenizer's scanners are their models -/

theorem loadLanes_eq {lanes : Bytes → List Bool} {p : UInt8 → Bool}
    (hlanes : ∀ chunk, lanes chunk = chunk.map p) {ptr : Bytes} {W i : Nat}
    (hfit : i + W ≤ ptr.length) :
    (load ptr W i).map lanes = some (laneMask (fun k => p (ptr.getD k 0)) W i) := by
  rw [load_eq hfit 0, Option.map_some, hlanes, List.map_map, ← map_range_eq_laneMask]
  exact congrArg some (List.map_congr_left fun _ _ => rfl)

theorem tailByte_eq {tail p : UInt8 → Bool} (htail : ∀ b, tail b = p b) {ptr : Bytes} {i : Nat}
    (hi : i < ptr.length) :
    (loadOne ptr i).map tail = some (p (ptr.getD i 0)) := by
  rw [loadOne_eq hi 0, Option.map_some, htail]

theorem scanWide_eq {lanes : Bytes → List Bool} {tail p : UInt8 → Bool}
    (hlanes : ∀ chunk, lanes chunk = chunk.map p) (htail : ∀ b, tail b = p b) (ptr : Bytes) :
    scanWide lanes tail ptr = some (MojoHttp.scanWide p ptr) := by
  have hloop : ∀ W, 0 < W → ∀ i,
      vectorLoop W (fun i => decide (i + W ≤ ptr.length)) (fun i => (load ptr W i).map lanes)
        (ptr.length + 1) i
        = some (laneLoop W (fun i => decide (i + W ≤ ptr.length)) (fun k => p (ptr.getD k 0))
            ptr.length i) := by
    intro W hW i
    apply vectorLoop_eq ptr.length hW
    · intro j _ hj
      have hfit : j + W ≤ ptr.length := by simpa using hj
      exact ⟨hfit, loadLanes_eq hlanes hfit⟩
    · omega
  have htailLoop : ∀ i,
      byteLoop (fun i => (loadOne ptr i).map tail) (ptr.length - i) i
        = some (firstFrom (fun k => p (ptr.getD k 0)) (ptr.length - i) i) := by
    intro i
    apply byteLoop_eq
    intro j _ hj
    exact tailByte_eq htail (by omega)
  unfold scanWide MojoHttp.scanWide
  dsimp only
  rw [hloop 64 (by decide), Option.bind_eq_bind, Option.bind_some]
  cases laneLoop 64 (fun i => decide (i + 64 ≤ ptr.length)) (fun k => p (ptr.getD k 0))
      ptr.length 0 with
  | inl k => rfl
  | inr i =>
    dsimp only
    rw [hloop 16 (by decide), Option.bind_some]
    cases laneLoop 16 (fun i => decide (i + 16 ≤ ptr.length)) (fun k => p (ptr.getD k 0))
        ptr.length i with
    | inl k => rfl
    | inr i => exact htailLoop i

theorem findFieldEnd_eq (ptr : Bytes) : findFieldEnd ptr = some (MojoHttp.findFieldEnd ptr) :=
  scanWide_eq (p := isFieldEnd) (fun _ => rfl) (fun _ => rfl) ptr

theorem findStop_eq (ptr : Bytes) (stop : UInt8) :
    findStop ptr stop = some (MojoHttp.findStop ptr stop) :=
  scanWide_eq (p := isStop stop) (fun _ => rfl) (fun _ => rfl) ptr

/-- The bytes asked after are among the readable ones, so the table is too. -/
theorem allTchar_eq {ptr : Bytes} {n : Nat} (hn : n ≤ ptr.length) :
    allTchar ptr n = some (MojoHttp.allTchar ptr n) := by
  have hloop : vectorLoop 16 (fun i => decide (i < n) && decide (i + 16 ≤ ptr.length))
      (fun i => (load ptr 16 i).map nonTcharLanes) (ptr.length + 1) 0
      = some (laneLoop 16 (fun i => decide (i < n) && decide (i + 16 ≤ ptr.length))
          (fun k => isNonTchar (ptr.getD k 0)) ptr.length 0) := by
    apply vectorLoop_eq ptr.length (by decide)
    · intro j _ hj
      have hfit : j + 16 ≤ ptr.length := by simp at hj; omega
      exact ⟨hfit, loadLanes_eq (fun _ => rfl) hfit⟩
    · omega
  unfold allTchar MojoHttp.allTchar
  rw [hloop, Option.bind_eq_bind, Option.bind_some]
  cases laneLoop 16 (fun i => decide (i < n) && decide (i + 16 ≤ ptr.length))
      (fun k => isNonTchar (ptr.getD k 0)) ptr.length 0 with
  | inl k => rfl
  | inr i =>
    have htail : byteLoop (fun i => (loadOne ptr i).map fun b => !isTokenChar b) (n - i) i
        = some (firstFrom (fun k => !isTokenChar (ptr.getD k 0)) (n - i) i) := by
      apply byteLoop_eq
      intro j _ hj
      exact tailByte_eq (fun _ => rfl) (by omega)
    dsimp only
    rw [htail, Option.bind_eq_bind, Option.bind_some]

/-! ## The resumed scanners are their models -/

theorem getElem?_beq {buffer : Bytes} {i : Nat} (h : i < buffer.length) (b : UInt8) :
    (buffer[i]? == some b) = (buffer.getD i 0 == b) := by
  rw [List.getElem?_eq_getElem h, List.getD_eq_getElem _ _ h]
  rfl

/-- A byte of the ORed loads is zero where the four bytes are CR LF CR LF. -/
theorem combined_eq_zero (a b c d : UInt8) :
    (a ^^^ CR ||| b ^^^ LF ||| c ^^^ CR ||| d ^^^ LF == 0)
      = (a == CR && b == LF && c == CR && d == LF) := by
  have hor : ∀ x y : UInt8, (x ||| y == 0) = (x == 0 && y == 0) := by
    intro x y
    rw [Bool.eq_iff_iff, Bool.and_eq_true, beq_iff_eq, beq_iff_eq, beq_iff_eq]
    exact UInt8.or_eq_zero_iff
  have hxor : ∀ x y : UInt8, (x ^^^ y == 0) = (x == y) := by
    intro x y
    rw [Bool.eq_iff_iff, beq_iff_eq, beq_iff_eq]
    exact UInt8.xor_eq_zero_iff
  rw [hor, hor, hor, hxor, hxor, hxor, hxor]

/-- The ORed loads at `i`, position by position. -/
theorem combinedLanes_eq {buffer : Bytes} {i : Nat} (hroom : i + 67 ≤ buffer.length) :
    combinedLanes buffer i = some ((List.range 64).map fun k =>
      buffer.getD (i + k) 0 ^^^ CR ||| buffer.getD (i + 1 + k) 0 ^^^ LF
        ||| buffer.getD (i + 2 + k) 0 ^^^ CR ||| buffer.getD (i + 3 + k) 0 ^^^ LF) := by
  unfold combinedLanes
  rw [load_eq (by omega) 0, load_eq (by omega) 0, load_eq (by omega) 0, load_eq (by omega) 0]
  simp only [Option.bind_eq_bind, Option.bind_some, List.map_map, List.zipWith_map,
    List.zipWith_self, Function.comp]

theorem combined_mask {buffer : Bytes} {i : Nat} (hroom : i + 67 ≤ buffer.length)
    {combined : Bytes} (hcombined : combinedLanes buffer i = some combined) :
    combined.map (· == 0) = laneMask (emptyLineAt buffer) 64 i := by
  rw [combinedLanes_eq hroom] at hcombined
  cases hcombined
  rw [List.map_map, ← map_range_eq_laneMask]
  apply List.map_congr_left
  intro k hk
  have hkW : k < 64 := List.mem_range.mp hk
  show (_ ||| _ ||| _ ||| _ == 0) = emptyLineAt buffer (i + k)
  rw [combined_eq_zero, emptyLineAt, getElem?_beq (by omega), getElem?_beq (by omega),
    getElem?_beq (by omega), getElem?_beq (by omega), Nat.add_right_comm i 1,
    Nat.add_right_comm i 2, Nat.add_right_comm i 3]

/-- The vectors' answer is that of the loop over positions, behind the four bytes: where the
minimum is zero there is a lane to name. -/
theorem headerEndVectors_eq {buffer : Bytes} {fuel i : Nat} (hfuel : buffer.length ≤ i + fuel) :
    headerEndVectors buffer (fuel + 1) i
      = some ((laneLoop 64 (fun i => i + 67 ≤ buffer.length) (emptyLineAt buffer) fuel i).map
          (· + 4) id) := by
  induction fuel generalizing i with
  | zero =>
    rw [headerEndVectors, if_neg (by omega), laneLoop]
    rfl
  | succ fuel ih =>
    by_cases hroom : i + 67 ≤ buffer.length
    · obtain ⟨combined, hcombined⟩ : ∃ combined, combinedLanes buffer i = some combined :=
        ⟨_, combinedLanes_eq hroom⟩
      have hmask := combined_mask hroom hcombined
      have hlen : (combined.map (· == 0)).length ≤ noLane := by
        rw [hmask, length_laneMask]
        decide
      have hzero : reduceMin combined = 0 ↔ true ∈ combined.map (· == 0) := by
        rw [reduceMin_eq_zero, List.mem_map]
        simp
      rw [headerEndVectors, if_pos hroom, hcombined, laneLoop, if_pos (by simpa using hroom),
        ← hmask, Option.bind_eq_bind, Option.bind_some]
      cases hlane : firstLane (combined.map (· == 0)) with
      | some lane =>
        have hmin : reduceMin combined = 0 := by
          rw [hzero]
          by_contra hnone
          rw [← firstLane_eq_none hlen, hlane] at hnone
          cases hnone
        rw [if_pos hmin]
        rfl
      | none =>
        have hmin : ¬ reduceMin combined = 0 := by
          rw [hzero]
          exact (firstLane_eq_none hlen).mp hlane
        rw [if_neg hmin]
        exact ih (by omega)
    · rw [headerEndVectors, if_neg hroom, laneLoop, if_neg (by simpa using hroom)]
      rfl

/-- The tail's test reads nothing past the third byte on. -/
theorem emptyLineHere_eq {buffer : Bytes} {i : Nat} (hroom : i + 3 < buffer.length) :
    emptyLineHere buffer i = some (emptyLineAt buffer i) := by
  unfold emptyLineHere emptyLineAt
  rw [loadOne_eq (by omega) 0, loadOne_eq (by omega) 0, loadOne_eq (by omega) 0,
    loadOne_eq (by omega) 0, getElem?_beq (by omega), getElem?_beq (by omega),
    getElem?_beq (by omega), getElem?_beq (by omega)]
  simp only [Option.bind_eq_bind, Option.bind_some, bne]
  cases buffer.getD i 0 == CR with
  | false => rfl
  | true =>
    cases buffer.getD (i + 1) 0 == LF with
    | false => rfl
    | true =>
      cases buffer.getD (i + 2) 0 == CR with
      | false => rfl
      | true => rfl

theorem findHeaderEnd_eq (buffer : Bytes) (searchStart : Int) :
    findHeaderEnd buffer searchStart
      = some (MojoHttp.findHeaderEnd buffer searchStart.toNat) := by
  unfold findHeaderEnd MojoHttp.findHeaderEnd
  by_cases hshort : buffer.length < 4
  · rw [if_pos hshort, if_pos hshort]
  · have hstart : (max (searchStart - 3) 0).toNat = searchStart.toNat - 3 := by omega
    have htail : ∀ i, byteLoop (emptyLineHere buffer) (buffer.length - 3 - i) i
        = some (firstFrom (emptyLineAt buffer) (buffer.length - 3 - i) i) := by
      intro i
      apply byteLoop_eq
      intro j _ hj
      exact emptyLineHere_eq (by omega)
    rw [if_neg hshort, if_neg hshort, hstart]
    dsimp only
    rw [headerEndVectors_eq (Nat.le_add_left _ _), Option.bind_eq_bind, Option.bind_some]
    cases laneLoop 64 (fun i => decide (i + 67 ≤ buffer.length)) (emptyLineAt buffer)
        buffer.length (searchStart.toNat - 3) with
    | inl k => rfl
    | inr i =>
      show (byteLoop (emptyLineHere buffer) (buffer.length - 3 - i) i).bind _ = _
      rw [htail, Option.bind_some]

/-- The second load starts a byte before the first, so a turn needs a byte before it. -/
theorem bareLfLanes_eq {buffer : Bytes} {i : Nat} (hpos : 0 < i) (hroom : i + 64 ≤ buffer.length) :
    bareLfLanes buffer i = some (laneMask (bareLfLane buffer) 64 i) := by
  have hback : ((i : Int) - 1) = (i - 1 : Nat) := by omega
  unfold bareLfLanes
  rw [hback, load_eq (by omega) 0, load_eq (by omega) 0, ← map_range_eq_laneMask]
  simp only [Option.bind_eq_bind, Option.bind_some, List.zipWith_map, List.zipWith_self]
  congr 1
  apply List.map_congr_left
  intro k hk
  have hkW : k < 64 := List.mem_range.mp hk
  rw [bareLfLane, show i + k - 1 = i - 1 + k from by omega]
  simp only [bne]
  rw [getElem?_beq (by omega), getElem?_beq (by omega)]

theorem bareLfHere_eq {buffer : Bytes} {i : Nat} (hpos : 0 < i) (hi : i < buffer.length) :
    bareLfHere buffer i = some (bareLfLane buffer i) := by
  have hback : ((i : Int) - 1) = (i - 1 : Nat) := by omega
  unfold bareLfHere bareLfLane
  simp only [bne]
  rw [hback, loadOne_eq (by omega) 0, loadOne_eq (by omega) 0, getElem?_beq (by omega),
    getElem?_beq (by omega)]
  simp only [Option.bind_eq_bind, Option.bind_some]
  cases buffer.getD i 0 == LF with
  | false => rfl
  | true => rfl

theorem bareLfFrom_eq {buffer : Bytes} {i : Nat} (hpos : 0 < i) (hi : i ≤ buffer.length) :
    bareLfFrom buffer i
      = some (match laneLoop 64 (fun i => i + 64 ≤ buffer.length) (bareLfLane buffer)
          buffer.length i with
        | .inl _ => true
        | .inr i => (firstFrom (bareLfLane buffer) (buffer.length - i) i).isSome) := by
  have hloop : vectorLoop 64 (fun i => i + 64 ≤ buffer.length) (bareLfLanes buffer)
      (buffer.length + 1) i
      = some (laneLoop 64 (fun i => i + 64 ≤ buffer.length) (bareLfLane buffer)
          buffer.length i) := by
    apply vectorLoop_eq buffer.length (by decide)
    · intro j hij hj
      have hfit : j + 64 ≤ buffer.length := by simpa using hj
      exact ⟨hfit, bareLfLanes_eq (by omega) hfit⟩
    · omega
  have hspec := laneLoop_answer (W := 64) (fun i => decide (i + 64 ≤ buffer.length))
    (bareLfLane buffer) buffer.length i (by decide) (fun i h => by simpa using h) hi
  unfold bareLfFrom
  dsimp only
  rw [hloop, Option.bind_eq_bind, Option.bind_some]
  cases hl : laneLoop 64 (fun i => i + 64 ≤ buffer.length) (bareLfLane buffer)
      buffer.length i with
  | inl k => rfl
  | inr i' =>
    rw [hl] at hspec
    obtain ⟨hle, -⟩ := hspec
    have htail : byteLoop (bareLfHere buffer) (buffer.length - i') i'
        = some (firstFrom (bareLfLane buffer) (buffer.length - i') i') := by
      apply byteLoop_eq
      intro j hij hj
      exact bareLfHere_eq (by omega) (by omega)
    dsimp only
    rw [htail, Option.bind_eq_bind, Option.bind_some]

theorem holdsBareLf_eq (buffer : Bytes) (start : Int) :
    holdsBareLf buffer start = some (MojoHttp.holdsBareLf buffer start.toNat) := by
  have hstart : (if start > 0 then start else 0).toNat = start.toNat := by
    split
    · rfl
    · omega
  unfold holdsBareLf MojoHttp.holdsBareLf
  dsimp only
  rw [hstart]
  by_cases hend : start.toNat ≥ buffer.length
  · rw [if_pos hend, if_pos hend]
  · rw [if_neg hend, if_neg hend]
    by_cases hzero : start.toNat = 0
    · have hfirst : loadOne buffer 0 = some (buffer.getD 0 0) :=
        loadOne_eq (i := 0) (by omega) 0
      have hget : buffer[0]? = some LF ↔ (buffer.getD 0 0 == LF) = true := by
        rw [← getElem?_beq (by omega), beq_iff_eq]
      rw [if_pos hzero, hfirst, Option.bind_eq_bind, Option.bind_some, hzero]
      by_cases hlf : (buffer.getD 0 0 == LF) = true
      · rw [if_pos hlf, if_pos ⟨rfl, hget.mpr hlf⟩]
      · rw [if_neg hlf, if_neg (fun h => hlf (hget.mp h.2)), bareLfFrom_eq (by decide) (by omega)]
        rfl
    · have hmax : max start.toNat 1 = start.toNat := Nat.max_eq_left (by omega)
      rw [if_neg hzero, if_neg (fun h => hzero h.1), hmax]
      exact bareLfFrom_eq (by omega) (by omega)

/-! ## The span scanners are their models -/

theorem load_slice {s : Bytes} {W i : Nat} (h : i + W ≤ s.length) :
    load s W i = some (slice s i (i + W)) := by
  rw [load_eq_slice h, slice, Nat.add_sub_cancel_left]

/-- The load that ends at the last byte. -/
theorem load_last {s : Bytes} {W : Nat} (h : W ≤ s.length) :
    load s W ((s.length : Int) - W) = some (slice s (s.length - W) s.length) := by
  have hback : ((s.length : Int) - W) = (s.length - W : Nat) := by omega
  rw [hback, load_slice (by omega), Nat.sub_add_cancel h]

theorem breaksChunks_eq {s : Bytes} {fuel i : Nat} (hfuel : s.length ≤ i + fuel) :
    breaksChunks s (fuel + 1) i = some (MojoHttp.breaksChunks s fuel i) := by
  induction fuel generalizing i with
  | zero => rw [breaksChunks, if_neg (by omega), MojoHttp.breaksChunks]
  | succ fuel ih =>
    by_cases hroom : i + 16 ≤ s.length
    · rw [breaksChunks, if_pos hroom, MojoHttp.breaksChunks, if_pos hroom, load_slice hroom,
        Option.bind_eq_bind, Option.bind_some, ih (by omega)]
      split
      · rfl
      · rfl
    · rw [breaksChunks, if_neg hroom, MojoHttp.breaksChunks, if_neg hroom]

theorem breaksTwice_eq {s : Bytes} {W : Nat} (h : W ≤ s.length) :
    breaksTwice s W
      = some (breaksLineLanes (slice s 0 W)
          || breaksLineLanes (slice s (s.length - W) s.length)) := by
  have hfirst : load s W 0 = some (slice s 0 W) := by
    have hload := load_slice (s := s) (W := W) (i := 0) (by omega)
    rwa [Nat.zero_add] at hload
  unfold breaksTwice
  rw [hfirst, load_last h]
  simp only [Option.bind_eq_bind, Option.bind_some]
  cases breaksLineLanes (slice s 0 W) with
  | false => rfl
  | true => rfl

/-- A walk over the bytes of a span finds what the span has. -/
theorem byteLoop_any (s : Bytes) (p : UInt8 → Bool) :
    byteLoop (fun i => (loadOne s i).map p) s.length 0 = some (s.findIdx? p) := by
  rw [← firstFrom_getD p s 0]
  apply byteLoop_eq
  intro j _ hj
  exact tailByte_eq (fun _ => rfl) (by omega)

theorem spanBreaksHeaderLine_eq (s : Bytes) :
    spanBreaksHeaderLine s = some (MojoHttp.spanBreaksHeaderLine s) := by
  unfold spanBreaksHeaderLine MojoHttp.spanBreaksHeaderLine
  dsimp only
  by_cases h16 : s.length ≥ 16
  · have hlast := load_last (s := s) (W := 16) h16
    rw [if_pos h16, if_pos h16, breaksChunks_eq (Nat.le_add_left _ _), Option.bind_eq_bind,
      Option.bind_some]
    cases MojoHttp.breaksChunks s s.length 0 with
    | none => rfl
    | some i =>
      dsimp only
      by_cases hi : i < s.length
      · rw [if_pos hi, decide_eq_true hi, Bool.true_and]
        show (load s 16 ((s.length : Int) - (16 : Nat))).bind _ = _
        rw [hlast, Option.bind_some]
      · rw [if_neg hi, decide_eq_false hi, Bool.false_and]
  · rw [if_neg h16, if_neg h16]
    by_cases h8 : s.length ≥ 8
    · rw [if_pos h8, if_pos h8]
      exact breaksTwice_eq h8
    · rw [if_neg h8, if_neg h8]
      by_cases h4 : s.length ≥ 4
      · rw [if_pos h4, if_pos h4]
        exact breaksTwice_eq h4
      · rw [if_neg h4, if_neg h4, byteLoop_any, Option.bind_eq_bind, Option.bind_some,
          List.findIdx?_isSome]

theorem valueChunks_eq {s : Bytes} {fuel i kind : Nat} (hfuel : s.length ≤ i + fuel) :
    valueChunks s (fuel + 1) i kind = some (MojoHttp.valueChunks s fuel i kind) := by
  induction fuel generalizing i kind with
  | zero => rw [valueChunks, if_neg (by omega), MojoHttp.valueChunks]
  | succ fuel ih =>
    by_cases hroom : i + 16 ≤ s.length
    · rw [valueChunks, if_pos hroom, MojoHttp.valueChunks, if_pos hroom, load_slice hroom,
        Option.bind_eq_bind, Option.bind_some]
      dsimp only
      rw [ih (by omega)]
      split
      · rfl
      · rfl
    · rw [valueChunks, if_neg hroom, MojoHttp.valueChunks, if_neg hroom]

theorem valueTwice_eq {s : Bytes} {W : Nat} (h : W ≤ s.length) :
    valueTwice s W
      = some (max (valueLanes (slice s 0 W)) (valueLanes (slice s (s.length - W) s.length))) := by
  have hfirst : load s W 0 = some (slice s 0 W) := by
    have hload := load_slice (s := s) (W := W) (i := 0) (by omega)
    rwa [Nat.zero_add] at hload
  unfold valueTwice
  rw [hfirst, load_last h]
  simp only [Option.bind_eq_bind, Option.bind_some]

/-- The bytes from `i` on, with as many turns as there are of them. -/
theorem shortKind_eq (s rest : Bytes) (i kind : Nat) (hrest : s.drop i = rest) :
    shortKind s rest.length i kind = some (MojoHttp.shortKind rest kind) := by
  induction rest generalizing i kind with
  | nil => rfl
  | cons c rest ih =>
    have hi : i < s.length := by
      by_contra hge
      rw [List.drop_eq_nil_of_le (by omega)] at hrest
      cases hrest
    rw [List.drop_eq_getElem_cons hi] at hrest
    injection hrest with hc hnext
    rw [List.length_cons, shortKind, loadOne_eq hi 0, List.getD_eq_getElem _ _ hi, hc,
      Option.bind_eq_bind, Option.bind_some, MojoHttp.shortKind, ih (i + 1) _ hnext]
    split
    · rfl
    · rfl

theorem headerValueKind_eq (s : Bytes) :
    headerValueKind s = some (MojoHttp.headerValueKind s) := by
  unfold headerValueKind MojoHttp.headerValueKind
  dsimp only
  by_cases h16 : s.length ≥ 16
  · have hlast := load_last (s := s) (W := 16) h16
    rw [if_pos h16, if_pos h16, valueChunks_eq (Nat.le_add_left _ _), Option.bind_eq_bind,
      Option.bind_some]
    cases MojoHttp.valueChunks s s.length 0 HEADER_VALUE_ASCII with
    | error k => rfl
    | ok r =>
      obtain ⟨i, kind⟩ := r
      dsimp only
      by_cases hi : i < s.length
      · rw [if_pos hi, if_pos hi]
        show (load s 16 ((s.length : Int) - (16 : Nat))).bind _ = _
        rw [hlast, Option.bind_some]
      · rw [if_neg hi, if_neg hi]
  · rw [if_neg h16, if_neg h16]
    by_cases h8 : s.length ≥ 8
    · rw [if_pos h8, if_pos h8]
      exact valueTwice_eq h8
    · rw [if_neg h8, if_neg h8]
      by_cases h4 : s.length ≥ 4
      · rw [if_pos h4, if_pos h4]
        exact valueTwice_eq h4
      · rw [if_neg h4, if_neg h4]
        exact shortKind_eq s s 0 HEADER_VALUE_ASCII List.drop_zero

/-! ## What the scanners answer -/

theorem holdsBareLf_eq_walk (buffer : Bytes) (start : Nat) :
    MojoHttp.holdsBareLf buffer start
      = (firstFrom (bareLfAt buffer) (buffer.length - start) start).isSome := by
  rw [Bool.eq_iff_iff, holdsBareLf_iff, Option.isSome_iff_exists]
  constructor
  · intro h
    obtain ⟨i, hi, hb⟩ := h
    have hlt := bareLfAt_lt hb
    cases hf : firstFrom (bareLfAt buffer) (buffer.length - start) start with
    | some k => exact ⟨k, rfl⟩
    | none =>
      rw [firstFrom_eq_none.mp hf i hi (by omega)] at hb
      cases hb
  · intro h
    obtain ⟨k, hk⟩ := h
    obtain ⟨hle, -, hb, -⟩ := firstFrom_eq_some.mp hk
    exact ⟨k, hle, hb⟩

/-- **The vector scanners are the byte scanners.** Over every buffer, from every start, each
answers, so no load of its own leaves the bytes it was given, and answers what a walk over the
bytes with its predicate answers: `List.findIdx?` and `List.all` from the first byte,
`firstFrom` from where a scan resumes. -/
theorem scanners_are_byte_walks :
    (∀ ptr, findFieldEnd ptr = some (ptr.findIdx? isFieldEnd)) ∧
    (∀ ptr stop, findStop ptr stop = some (ptr.findIdx? (isStop stop))) ∧
    (∀ token rest, allTchar (token ++ rest) token.length = some (token.all isTokenChar)) ∧
    (∀ buffer searchStart, findHeaderEnd buffer searchStart
      = some ((firstFrom (emptyLineAt buffer) (buffer.length - 3 - (searchStart - 3).toNat)
          (searchStart - 3).toNat).map (· + 4))) ∧
    (∀ buffer start, holdsBareLf buffer start
      = some (firstFrom (bareLfAt buffer) (buffer.length - start.toNat) start.toNat).isSome) ∧
    (∀ s, spanBreaksHeaderLine s = some (s.any breaksLine)) ∧
    (∀ s, headerValueKind s = some (kindOf s)) := by
  refine ⟨?_, ?_, ?_, ?_, ?_, ?_, ?_⟩
  · intro ptr
    rw [findFieldEnd_eq, MojoHttp.findFieldEnd, MojoHttp.scanWide_eq]
  · intro ptr stop
    rw [findStop_eq, MojoHttp.findStop, MojoHttp.scanWide_eq]
  · intro token rest
    have hlen : token.length ≤ (token ++ rest).length := by simp
    rw [allTchar_eq hlen]
    congr 1
    rw [Bool.eq_iff_iff, allTchar_iff hlen, List.take_left, List.all_eq_true]
  · intro buffer searchStart
    have hstart : searchStart.toNat - 3 = (searchStart - 3).toNat := by omega
    rw [findHeaderEnd_eq, MojoHttp.findHeaderEnd_eq, hstart]
  · intro buffer start
    rw [holdsBareLf_eq, holdsBareLf_eq_walk]
  · intro s
    rw [spanBreaksHeaderLine_eq, MojoHttp.spanBreaksHeaderLine_eq, ← any_breaks_eq]
    rfl
  · intro s
    rw [headerValueKind_eq, MojoHttp.headerValueKind_eq]

end MojoHttp.Scanners
