import MojoHttp.Bytes
import MojoHttp.Lib.LaneScan
import MojoHttp.Lib.CrlfText

/-!
# The head tokenizer (`http/parsing.mojo`)

The request line and the field lines, taken off the bytes of one head, as offsets into the
buffer. The scanners run 64 lanes wide, then 16, then a byte at a time.

* **`scanWide`** — the three loops `_find_field_end` and `_find_stop` share; `scanWide_eq`
  makes it a search for the first byte of a class.
* **`scanToEol_ok` / `scanToken_ok`** — what a value and a token that were taken are made of.
* **`httpParseRequestHeaders_ok`** — the whole head: everything read holds no bare LF and ends
  in CR LF CR LF. A head's end is thus a position at which the terminator search
  (`find_header_end`) stops too; the proof is one `Eats` step per line, glued by
  `Eats.trans`.
-/

namespace MojoHttp

open BytesConstant LaneScan CrlfText

inductive HTTPParseError where
  | parseError
  | incompleteError
  deriving Repr, DecidableEq

/-- `HTTPHeader`: one parsed field, as offsets into the buffer the parser was given. -/
structure HTTPHeader where
  nameStart : Nat
  nameLen : Nat
  valueStart : Nat
  valueLen : Nat
  deriving Repr, DecidableEq

/-! ## The byte classes of the scanners -/

/-- `_field_end_lanes`: a control byte other than HTAB, or DEL. -/
def isFieldEnd (b : UInt8) : Bool := (b < 0x20 && b != TAB) || b == 0x7F

/-- `_stop_lanes`: `stop`, a control byte, DEL or a byte above ASCII. -/
def isStop (stop b : UInt8) : Bool := b < 0x20 || b ≥ 0x7F || b == stop

/-- `_non_tchar_lanes`: the complement of the tchars, spelled as ranges. -/
def isNonTchar (b : UInt8) : Bool :=
  b < 0x21 || b ≥ 0x7F || (b ≥ 0x3A && b ≤ 0x40) || (b ≥ 0x5B && b ≤ 0x5D)
    || b == 0x22 || b == 0x28 || b == 0x29 || b == 0x2C || b == 0x2F || b == 0x7B || b == 0x7D

/-- The vector class and the bit table name the same bytes. -/
theorem isNonTchar_eq : ∀ b : UInt8, isNonTchar b = !isTokenChar b :=
  forall_byte (P := fun b => isNonTchar b = !isTokenChar b) (by decide)

/-! ## The scanners -/

/-- The loops of `_find_field_end` and `_find_stop`: 64 lanes while they fit, 16 over what is
left, one byte at a time over the last fifteen. -/
def scanWide (p : UInt8 → Bool) (bytes : Bytes) : Option Nat :=
  let length := bytes.length
  let hit := fun k => p (bytes.getD k 0)
  match laneLoop 64 (fun i => i + 64 ≤ length) hit length 0 with
  | .inl k => some k
  | .inr i =>
    match laneLoop 16 (fun i => i + 16 ≤ length) hit length i with
    | .inl k => some k
    | .inr i => firstFrom hit (length - i) i

def findFieldEnd (bytes : Bytes) : Option Nat := scanWide isFieldEnd bytes

def findStop (bytes : Bytes) (stop : UInt8) : Option Nat := scanWide (isStop stop) bytes

theorem scanWide_eq (p : UInt8 → Bool) (bytes : Bytes) : scanWide p bytes = bytes.findIdx? p := by
  unfold scanWide
  rw [← firstFrom_getD p bytes 0]
  refine firstFrom_of_laneLoop (fun i =>
    match laneLoop 16 (fun i => i + 16 ≤ bytes.length) (fun k => p (bytes.getD k 0))
      bytes.length i with
    | .inl k => some k
    | .inr i => firstFrom (fun k => p (bytes.getD k 0)) (bytes.length - i) i)
    bytes.length 0 (by decide) (fun i h => by simpa using h) (Nat.zero_le _) ?_
  intro i _ hi
  exact firstFrom_of_laneLoop _ _ i (by decide) (fun i h => by simpa using h) hi
    (fun _ _ _ => rfl)

/-- The vector turns of `_all_tchar`: sixteen lanes while a whole vector is readable. -/
def allTchar (bytes : Bytes) (n : Nat) : Bool :=
  match laneLoop 16 (fun i => decide (i < n) && decide (i + 16 ≤ bytes.length))
      (fun k => isNonTchar (bytes.getD k 0)) bytes.length 0 with
  | .inl k => decide (n ≤ k)
  | .inr i => (firstFrom (fun k => !isTokenChar (bytes.getD k 0)) (n - i) i).isNone

theorem allTchar_iff {bytes : Bytes} {n : Nat} (hn : n ≤ bytes.length) :
    allTchar bytes n = true ↔ ∀ b ∈ bytes.take n, isTokenChar b = true := by
  have hhit : (fun k => isNonTchar (bytes.getD k 0)) = fun k => !isTokenChar (bytes.getD k 0) := by
    funext k; rw [isNonTchar_eq]
  have hall : (∀ b ∈ bytes.take n, isTokenChar b = true) ↔
      ∀ j, j < n → (!isTokenChar (bytes.getD j 0)) = false := by
    rw [List.forall_mem_iff_getElem]
    constructor
    · intro h j hj
      have hlt : j < (bytes.take n).length := by simp; omega
      have hb := h j hlt
      rw [List.getElem_take] at hb
      rw [List.getD_eq_getElem _ _ (by omega), hb]
      rfl
    · intro h j hj
      have hjn : j < n := by simp at hj; omega
      have hb := h j hjn
      rw [List.getD_eq_getElem _ _ (by omega)] at hb
      rw [List.getElem_take]
      simpa using hb
  rw [hall]
  unfold allTchar
  rw [hhit]
  have hspec := laneLoop_answer (W := 16) (fun i => decide (i < n) && decide (i + 16 ≤ bytes.length))
    (fun k => !isTokenChar (bytes.getD k 0)) bytes.length 0 (by decide)
    (fun i h => show i + 16 ≤ bytes.length by simp at h; omega) (Nat.zero_le _)
  cases hl : laneLoop 16 (fun i => decide (i < n) && decide (i + 16 ≤ bytes.length))
      (fun k => !isTokenChar (bytes.getD k 0)) bytes.length 0 with
  | inl k =>
    rw [hl] at hspec
    obtain ⟨-, -, hk, hmin⟩ := firstFrom_eq_some.mp hspec
    simp only [decide_eq_true_eq]
    constructor
    · intro hnk j hj
      exact hmin j (Nat.zero_le _) (by omega)
    · intro h
      rcases Nat.lt_or_ge k n with hlt | hge
      · rw [h k hlt] at hk; cases hk
      · exact hge
  | inr i =>
    rw [hl] at hspec
    obtain ⟨-, hi, heq⟩ := hspec
    -- the vector turns passed over `[0, i)`: nothing there is refused
    have hpre : ∀ j, j < i → (!isTokenChar (bytes.getD j 0)) = false := by
      have hsplit := firstFrom_add (fun k => !isTokenChar (bytes.getD k 0)) i (bytes.length - i) 0
      rw [show i + (bytes.length - i) = bytes.length - 0 from by omega, heq, Nat.zero_add] at hsplit
      cases hf : firstFrom (fun k => !isTokenChar (bytes.getD k 0)) i 0 with
      | none =>
        intro j hj
        exact firstFrom_eq_none.mp hf j (Nat.zero_le _) (by omega)
      | some p =>
        rw [hf, Option.some_or] at hsplit
        obtain ⟨-, hp, -⟩ := firstFrom_eq_some.mp hf
        obtain ⟨hp', -⟩ := firstFrom_eq_some.mp hsplit
        omega
    simp only [Option.isNone_iff_eq_none]
    rw [firstFrom_eq_none]
    constructor
    · intro h j hj
      rcases Nat.lt_or_ge j i with hlt | hge
      · exact hpre j hlt
      · exact h j hge (by omega)
    · intro h j h1 h2
      exact h j (by omega)

/-! ## `scan_to_eol` and `scan_token` -/

/-- `scan_to_eol`: past one field value and its CRLF; the value's start and length. -/
def scanToEol (buf : ByteReader) : Except HTTPParseError (Nat × Nat × ByteReader) :=
  let tokenStart := buf.readPos
  match findFieldEnd buf.rest with
  | none => .error .incompleteError
  | some found =>
    let buf := buf.increment found
    if buf.tryPeek = some CR then
      let buf := buf.increment
      match buf.tryPeek with
      | none => .error .incompleteError
      | some next =>
        if next ≠ LF then .error .parseError
        else .ok (tokenStart, buf.readPos - 1 - tokenStart, buf.increment)
    else .error .parseError

/-- `scan_token`: past one token up to `nextChar`; the token's start and length. -/
def scanToken (buf : ByteReader) (nextChar : UInt8) :
    Except HTTPParseError (Nat × Nat × ByteReader) :=
  match findStop buf.rest nextChar with
  | some found =>
    if (buf.increment found).tryPeek ≠ some nextChar then .error .parseError
    else if !allTchar buf.rest found then .error .parseError
    else .ok (buf.readPos, found, buf.increment found)
  | none =>
    if buf.rest.all isTokenChar then .error .incompleteError else .error .parseError

/-- `parse_token`: the token's bytes, its length and the reader behind it. -/
def parseToken (buf : ByteReader) (nextChar : UInt8) :
    Except HTTPParseError (Bytes × Nat × ByteReader) :=
  match scanToken buf nextChar with
  | .error e => .error e
  | .ok (start, tokenLen, buf) => .ok (slice buf.inner start (start + tokenLen), tokenLen, buf)

open ByteReader in
/-- A value that was taken: bytes of no control class, then CR LF. -/
theorem scanToEol_ok {buf buf' : ByteReader} {start length : Nat}
    (h : scanToEol buf = .ok (start, length, buf')) :
    ∃ value, buf.Eats (value ++ crlf) buf' ∧ start = buf.readPos ∧ length = value.length ∧
      ∀ b ∈ value, isFieldEnd b = false := by
  unfold scanToEol at h
  cases hf : findFieldEnd buf.rest with
  | none => rw [hf] at h; cases h
  | some found =>
    rw [hf] at h
    dsimp only at h
    unfold findFieldEnd at hf
    rw [scanWide_eq] at hf
    obtain ⟨hlt, -, hmin⟩ := List.findIdx?_eq_some_iff_getElem.mp hf
    split at h
    · rename_i hcr
      split at h
      · cases h
      · rename_i next hnext
        split at h
        · cases h
        · rename_i hlf
          rw [not_not] at hlf
          subst hlf
          cases h
          have hvalue := Eats.increment (r := buf) (Nat.le_of_lt hlt)
          refine ⟨buf.rest.take found, ?_, rfl, ?_, ?_⟩
          · exact hvalue.trans ((Eats.peek hcr).trans (Eats.peek hnext))
          · simp [Nat.le_of_lt hlt]
          · intro b hb
            obtain ⟨j, hj, rfl⟩ := List.getElem_of_mem hb
            rw [List.getElem_take]
            have hjf : j < found := by simp at hj; omega
            simpa using hmin j hjf
    · cases h

open ByteReader in
/-- A token that was taken: tchars, and `nextChar` is next. -/
theorem scanToken_ok {buf buf' : ByteReader} {c : UInt8} {start length : Nat}
    (h : scanToken buf c = .ok (start, length, buf')) :
    ∃ token, buf.Eats token buf' ∧ start = buf.readPos ∧ length = token.length ∧
      (∀ b ∈ token, isTokenChar b = true) ∧ buf'.tryPeek = some c := by
  unfold scanToken at h
  cases hf : findStop buf.rest c with
  | none => rw [hf] at h; dsimp only at h; split at h <;> cases h
  | some found =>
    rw [hf] at h
    dsimp only at h
    unfold findStop at hf
    rw [scanWide_eq] at hf
    obtain ⟨hlt, -⟩ := List.findIdx?_eq_some_iff_getElem.mp hf
    split at h
    · cases h
    · rename_i hnext
      rw [not_not] at hnext
      split at h
      · cases h
      · rename_i hall
        cases h
        refine ⟨buf.rest.take length, Eats.increment (Nat.le_of_lt hlt), rfl, ?_, ?_, hnext⟩
        · simp [Nat.le_of_lt hlt]
        · exact (allTchar_iff (Nat.le_of_lt hlt)).mp (by simpa using hall)

/-! ## `parse_http_version` -/

/-- `_expect_byte`. -/
def expectByte (buf : ByteReader) (want : UInt8) : Except HTTPParseError ByteReader :=
  match buf.tryGetByte with
  | some (byte, buf) => if byte = want then .ok buf else .error .parseError
  | none => .error .parseError

/-- `_expect_byte` of each byte of a literal in turn. -/
def expectBytes (buf : ByteReader) : Bytes → Except HTTPParseError ByteReader
  | [] => .ok buf
  | want :: wants =>
    match expectByte buf want with
    | .error e => .error e
    | .ok buf => expectBytes buf wants

def parseHttpVersion (buf : ByteReader) : Except HTTPParseError (Nat × ByteReader) :=
  if buf.remaining < 9 then .error .incompleteError
  else
    match expectBytes buf [H, T, T, P, SLASH, ONE, DOT] with
    | .error e => .error e
    | .ok buf =>
      match buf.tryPeek with
      | none => .error .incompleteError
      | some version =>
        if version < ZERO ∨ version > NINE then .error .parseError
        else .ok ((version - ZERO).toNat, buf.increment)

/-! ## `parse_headers` -/

/-- SP or HTAB. -/
def isBlank (b : UInt8) : Bool := b == whitespace || b == TAB

/-- `while value_len > 0: if the last byte is no blank: break; value_len -= 1`. -/
def trimTrailing (inner : Bytes) (valueStart : Nat) : Nat → Nat
  | 0 => 0
  | n + 1 => if isBlank (inner.getD (valueStart + n) 0) then trimTrailing inner valueStart n
             else n + 1

/-- One field line, from its first byte to behind its CRLF. -/
def parseFieldLine (buf : ByteReader) : Except HTTPParseError (HTTPHeader × ByteReader) :=
  match scanToken buf COLON with
  | .error e => .error e
  | .ok (nameStart, nameLen, buf) =>
    if nameLen = 0 then .error .parseError
    else
      let buf := buf.increment
      let buf := buf.skipWhile isBlank buf.remaining
      match scanToEol buf with
      | .error e => .error e
      | .ok (valueStart, valueLen, buf) =>
        .ok (⟨nameStart, nameLen, valueStart, trimTrailing buf.inner valueStart valueLen⟩, buf)

/-- `parse_headers`. `room` is `max_headers - num_headers`; the lines found so far are
`headers`. A first line may open with a blank, which its name then refuses; a later one is an
obs-fold. -/
def parseHeaders : (room : Nat) → ByteReader → List HTTPHeader →
    Except HTTPParseError (List HTTPHeader × ByteReader)
  | room, buf, headers =>
    match buf.tryPeek with
    | none => .error .incompleteError
    | some byte =>
      if byte = CR then
        let buf := buf.increment
        match buf.tryPeek with
        | none => .error .incompleteError
        | some next => if next ≠ LF then .error .parseError else .ok (headers, buf.increment)
      else if byte = LF then .error .parseError
      else
        match room with
        | 0 => .error .parseError
        | room + 1 =>
          if headers = [] ∨ ¬ isBlank byte then
            match parseFieldLine buf with
            | .error e => .error e
            | .ok (h, buf) => parseHeaders room buf (headers ++ [h])
          else .error .parseError

/-! ## `http_parse_request_headers` -/

/-- What the tokenizer hands back: how much it read, the request line and the field lines. -/
structure RequestHead where
  consumed : Nat
  method : Bytes
  path : Bytes
  minorVersion : Nat
  headers : List HTTPHeader
  deriving Repr, DecidableEq

/-- The empty lines before a request line, each a CRLF; `k` bounds the turns. -/
def skipEmptyLines : (k : Nat) → ByteReader → Except HTTPParseError ByteReader
  | 0, buf => .ok buf
  | k + 1, buf =>
    match buf.tryPeek with
    | none => .ok buf
    | some byte =>
      if byte = CR then
        let buf := buf.increment
        match buf.tryPeek with
        | none => .error .incompleteError
        | some next =>
          if next ≠ LF then .error .parseError else skipEmptyLines k buf.increment
      else if byte = LF then .error .parseError
      else .ok buf

/-- The request target: up to the SP before the version. -/
def parseTarget (buf : ByteReader) : Except HTTPParseError (Bytes × ByteReader) :=
  match findStop buf.rest whitespace with
  | none => .error .incompleteError
  | some found =>
    if (buf.increment found).tryPeek ≠ some whitespace then .error .parseError
    else .ok (slice buf.inner buf.readPos (buf.readPos + found), buf.increment found)

/-- `http_parse_request_headers`; its codes -1 and -2 are the two errors. -/
def httpParseRequestHeaders (buffer : Bytes) (maxHeaders : Nat) :
    Except HTTPParseError RequestHead :=
  match skipEmptyLines buffer.length ⟨buffer, 0⟩ with
  | .error e => .error e
  | .ok buf =>
  match parseToken buf whitespace with
  | .error e => .error e
  | .ok (method, methodLen, buf) =>
  let buf := buf.increment
  let buf := buf.skipWhile (· == whitespace) buf.remaining
  match parseTarget buf with
  | .error e => .error e
  | .ok (path, buf) =>
  let buf := buf.skipWhile (· == whitespace) buf.remaining
  if !buf.available then .error .incompleteError
  else if methodLen = 0 ∨ path.length = 0 then .error .parseError
  else
  match parseHttpVersion buf with
  | .error e => .error e
  | .ok (minorVersion, buf) =>
  match buf.tryPeek with
  | none => .error .incompleteError
  | some byte =>
    if byte ≠ CR then .error .parseError
    else
    let buf := buf.increment
    match buf.tryPeek with
    | none => .error .incompleteError
    | some next =>
      if next ≠ LF then .error .parseError
      else
        match parseHeaders maxHeaders buf.increment [] with
        | .error e => .error e
        | .ok (headers, buf) => .ok ⟨buf.readPos, method, path, minorVersion, headers⟩

/-! ## What was read

Every piece the tokenizer takes off the buffer is free of bare line feeds, and so is what
they make together. -/

namespace ByteReader

/-- `r'` is `r` after reading some text without a bare LF. -/
def Reads (r r' : ByteReader) : Prop := ∃ eaten, r.Eats eaten r' ∧ NoBareLf eaten

theorem Reads.refl (r : ByteReader) : r.Reads r := ⟨[], Eats.refl r, noBareLf_nil⟩

theorem Reads.trans {r r' r'' : ByteReader} (h1 : r.Reads r') (h2 : r'.Reads r'') :
    r.Reads r'' := by
  obtain ⟨a, ha, hna⟩ := h1
  obtain ⟨b, hb, hnb⟩ := h2
  exact ⟨a ++ b, ha.trans hb, hna.append hnb⟩

theorem Reads.peek {r : ByteReader} {b : UInt8} (h : r.tryPeek = some b) (hb : b ≠ LF) :
    r.Reads r.increment :=
  ⟨[b], Eats.peek h, noBareLf_of_not_mem (by simpa using fun h => hb h.symm)⟩

theorem Reads.crlf {r : ByteReader} (h1 : r.tryPeek = some CR)
    (h2 : r.increment.tryPeek = some LF) : r.Eats crlf r.increment.increment :=
  (Eats.peek h1).trans (Eats.peek h2)

theorem Reads.skipWhile {p : UInt8 → Bool} (hp : p LF = false) (k : Nat) (r : ByteReader) :
    r.Reads (r.skipWhile p k) := by
  obtain ⟨eaten, he, hall⟩ := skipWhile_eats p k r
  refine ⟨eaten, he, noBareLf_of_not_mem fun hmem => ?_⟩
  rw [hall _ hmem] at hp
  cases hp

end ByteReader

open ByteReader

theorem not_mem_lf_of_visible {l : Bytes} (h : ∀ b ∈ l, (0x21 : UInt8) ≤ b) : lf ∉ l := by
  intro hmem
  have := h _ hmem
  revert this
  decide

theorem lf_not_mem_token {token : Bytes} (h : ∀ b ∈ token, isTokenChar b = true) : lf ∉ token :=
  not_mem_lf_of_visible fun b hb => (isTokenChar_visible b (h b hb)).1

theorem lf_not_mem_value {value : Bytes} (h : ∀ b ∈ value, isFieldEnd b = false) :
    lf ∉ value := by
  intro hmem
  have := h _ hmem
  revert this
  decide

theorem expectByte_reads {buf buf' : ByteReader} {want : UInt8} (hwant : want ≠ LF)
    (h : expectByte buf want = .ok buf') : buf.Reads buf' := by
  unfold expectByte tryGetByte at h
  split at h
  · rename_i byte b heq
    split at h
    · rename_i hbyte
      cases h
      by_cases hav : buf.available
      · rw [if_pos hav, Option.map_eq_some_iff] at heq
        obtain ⟨c, hc, hpair⟩ := heq
        cases hpair
        exact Reads.peek (by rw [tryPeek, if_pos hav, hc]) (hbyte ▸ hwant)
      · rw [if_neg hav] at heq
        cases heq
    · cases h
  · cases h

theorem expectBytes_reads {wants : Bytes} (hwants : LF ∉ wants) {buf buf' : ByteReader}
    (h : expectBytes buf wants = .ok buf') : buf.Reads buf' := by
  induction wants generalizing buf with
  | nil => cases h; exact Reads.refl _
  | cons want wants ih =>
    rw [List.mem_cons, not_or] at hwants
    unfold expectBytes at h
    split at h
    · cases h
    · rename_i b heq
      exact (expectByte_reads (fun h => hwants.1 h.symm) heq).trans (ih hwants.2 h)

theorem parseHttpVersion_reads {buf buf' : ByteReader} {v : Nat}
    (h : parseHttpVersion buf = .ok (v, buf')) : buf.Reads buf' := by
  unfold parseHttpVersion at h
  split at h
  · cases h
  · split at h
    · cases h
    · rename_i b heq
      have h1 := expectBytes_reads (by decide) heq
      split at h
      · cases h
      · rename_i version hpeek
        split at h
        · cases h
        · rename_i hrange
          cases h
          refine h1.trans (Reads.peek hpeek fun hv => hrange (Or.inl ?_))
          rw [hv]
          decide

/-- The name and the value a field line's offsets point at. -/
def HTTPHeader.name (h : HTTPHeader) (buffer : Bytes) : Bytes :=
  slice buffer h.nameStart (h.nameStart + h.nameLen)

def HTTPHeader.value (h : HTTPHeader) (buffer : Bytes) : Bytes :=
  slice buffer h.valueStart (h.valueStart + h.valueLen)

/-- A field line as a request head may hold it: a token for a name, a value of no control. -/
def HTTPHeader.WellFormed (h : HTTPHeader) (buffer : Bytes) : Prop :=
  h.name buffer ≠ [] ∧ (∀ b ∈ h.name buffer, isTokenChar b = true) ∧
    ∀ b ∈ h.value buffer, isFieldEnd b = false

theorem trimTrailing_le (inner : Bytes) (start n : Nat) : trimTrailing inner start n ≤ n := by
  induction n with
  | zero => exact Nat.le_refl _
  | succ n ih => simp only [trimTrailing]; split <;> omega

/-- The slice from a position a reader stood at, as long as what was eaten from there. -/
theorem ByteReader.Eats.slice_start {r r' : ByteReader} {a b : Bytes} (h : r.Eats (a ++ b) r') :
    slice r.inner r.readPos (r.readPos + a.length) = a := by
  have hrest := h.rest
  unfold ByteReader.rest at hrest
  unfold slice
  rw [hrest, show r.readPos + a.length - r.readPos = a.length from by omega, List.append_assoc,
    List.take_left']
  rfl

theorem parseFieldLine_ok {buf buf' : ByteReader} {line : HTTPHeader}
    (h : parseFieldLine buf = .ok (line, buf')) :
    (∃ text, buf.Eats (text ++ crlf) buf' ∧ NoBareLf text) ∧ line.WellFormed buf.inner := by
  unfold parseFieldLine at h
  split at h
  · cases h
  · rename_i nameStart nameLen b1 hname
    obtain ⟨name, he1, hstart1, hlen1, htok, hcolon⟩ := scanToken_ok hname
    split at h
    · cases h
    · rename_i hne
      dsimp only at h
      split at h
      · cases h
      · rename_i valueStart valueLen b2 hvalue
        obtain ⟨value, he2, hstart2, hlen2, hval⟩ := scanToEol_ok hvalue
        cases h
        obtain ⟨sep, hesep, hsep⟩ := (Reads.peek hcolon (by decide)).trans
          (Reads.skipWhile (p := isBlank) (by decide) b1.increment.remaining b1.increment)
        have hlf : NoBareLf (name ++ sep ++ value) :=
          ((noBareLf_of_not_mem (lf_not_mem_token htok)).append hsep).append
            (noBareLf_of_not_mem (lf_not_mem_value hval))
        have hall := (he1.trans hesep).trans he2
        have hnameEq : HTTPHeader.name ⟨nameStart, nameLen, valueStart,
            trimTrailing buf'.inner valueStart valueLen⟩ buf.inner = name := by
          have hs := Eats.slice_start (a := name) (b := []) (by simpa using he1)
          simp only [HTTPHeader.name, hstart1, hlen1]
          exact hs
        refine ⟨⟨name ++ sep ++ value, ?_, hlf⟩, ?_, ?_, ?_⟩
        · rw [List.append_assoc (name ++ sep)]
          exact hall
        · rw [hnameEq]
          intro hnil
          exact hne (by rw [hlen1, hnil]; rfl)
        · rw [hnameEq]
          exact htok
        · -- the value is a prefix of what the scanner took
          intro c hc
          have hs := Eats.slice_start he2
          rw [hesep.inner, he1.inner, ← hstart2] at hs
          have hle := trimTrailing_le buf'.inner valueStart valueLen
          have hsub : HTTPHeader.value ⟨nameStart, nameLen, valueStart,
              trimTrailing buf'.inner valueStart valueLen⟩ buf.inner
              = value.take (trimTrailing buf'.inner valueStart valueLen) := by
            simp only [HTTPHeader.value]
            rw [← hs, ← hlen2]
            unfold slice
            rw [List.take_take]
            congr 1
            omega
          rw [hsub] at hc
          exact hval c (List.mem_of_mem_take hc)

/-- Text that ends in a line's CRLF, or no text at all. -/
def EndsLine (text : Bytes) : Prop := text = [] ∨ ∃ t, text = t ++ crlf

/-- The field lines and the empty line behind them. -/
theorem parseHeaders_ok {room : Nat} {buf buf' : ByteReader} {hs hs' : List HTTPHeader}
    (h : parseHeaders room buf hs = .ok (hs', buf'))
    (hwf : ∀ line ∈ hs, line.WellFormed buf.inner) :
    (∃ text, buf.Eats (text ++ crlf) buf' ∧ NoBareLf text ∧ EndsLine text) ∧
      ∀ line ∈ hs', line.WellFormed buf.inner := by
  induction room generalizing buf hs with
  | zero =>
    unfold parseHeaders at h
    split at h
    · cases h
    · rename_i byte hpeek
      split at h
      · rename_i hcr
        dsimp only at h
        split at h
        · cases h
        · rename_i next hnext
          split at h
          · cases h
          · rename_i hlf
            rw [not_not] at hlf
            subst hcr hlf
            cases h
            exact ⟨⟨[], by simpa using Reads.crlf hpeek hnext, noBareLf_nil, Or.inl rfl⟩, hwf⟩
      · split at h <;> cases h
  | succ room ih =>
    unfold parseHeaders at h
    split at h
    · cases h
    · rename_i byte hpeek
      split at h
      · rename_i hcr
        dsimp only at h
        split at h
        · cases h
        · rename_i next hnext
          split at h
          · cases h
          · rename_i hlf
            rw [not_not] at hlf
            subst hcr hlf
            cases h
            exact ⟨⟨[], by simpa using Reads.crlf hpeek hnext, noBareLf_nil, Or.inl rfl⟩, hwf⟩
      · split at h
        · cases h
        · dsimp only at h
          split at h
          · split at h
            · cases h
            · rename_i line b1 hline
              obtain ⟨⟨text1, he1, hn1⟩, hwf1⟩ := parseFieldLine_ok hline
              have hinner := he1.inner
              obtain ⟨⟨text2, he2, hn2, hend⟩, hwf2⟩ := ih h (by
                rw [hinner]
                intro l hl
                rcases List.mem_append.mp hl with hl | hl
                · exact hwf l hl
                · rw [List.mem_singleton.mp hl]; exact hwf1)
              rw [hinner] at hwf2
              refine ⟨⟨text1 ++ crlf ++ text2, ?_, (hn1.append noBareLf_crlf).append hn2, ?_⟩,
                hwf2⟩
              · rw [List.append_assoc (text1 ++ crlf)]
                exact he1.trans he2
              · rcases hend with rfl | ⟨t, rfl⟩
                · exact Or.inr ⟨text1, by simp⟩
                · exact Or.inr ⟨text1 ++ crlf ++ t, by simp⟩
          · cases h

/-- No more lines than there was room for. -/
theorem length_parseHeaders_le {room : Nat} {buf buf' : ByteReader} {hs hs' : List HTTPHeader}
    (h : parseHeaders room buf hs = .ok (hs', buf')) : hs'.length ≤ hs.length + room := by
  induction room generalizing buf hs with
  | zero =>
    unfold parseHeaders at h
    split at h
    · cases h
    · split at h
      · dsimp only at h
        split at h
        · cases h
        · split at h
          · cases h
          · cases h
            exact Nat.le_refl _
      · split at h <;> cases h
  | succ room ih =>
    unfold parseHeaders at h
    split at h
    · cases h
    · split at h
      · dsimp only at h
        split at h
        · cases h
        · split at h
          · cases h
          · cases h
            omega
      · split at h
        · cases h
        · dsimp only at h
          split at h
          · split at h
            · cases h
            · have hle := ih h
              rw [List.length_append, List.length_singleton] at hle
              omega
          · cases h

theorem skipEmptyLines_reads {k : Nat} {buf buf' : ByteReader}
    (h : skipEmptyLines k buf = .ok buf') : buf.Reads buf' := by
  induction k generalizing buf with
  | zero => cases h; exact Reads.refl _
  | succ k ih =>
    unfold skipEmptyLines at h
    split at h
    · cases h; exact Reads.refl _
    · rename_i byte hpeek
      split at h
      · rename_i hcr
        dsimp only at h
        split at h
        · cases h
        · rename_i next hnext
          split at h
          · cases h
          · rename_i hlf
            rw [not_not] at hlf
            subst hcr hlf
            exact Reads.trans ⟨crlf, Reads.crlf hpeek hnext, noBareLf_crlf⟩ (ih h)
      · split at h
        · cases h
        · cases h; exact Reads.refl _

/-- A request-target byte: visible ASCII, so no blank, no control and nothing above ASCII. -/
def IsTargetByte (b : UInt8) : Prop := 0x21 ≤ b ∧ b < 0x7F

theorem isTargetByte_of_not_stop :
    ∀ b : UInt8, isStop whitespace b = false → 0x21 ≤ b ∧ b < 0x7F :=
  forall_byte (P := fun b => isStop whitespace b = false → 0x21 ≤ b ∧ b < 0x7F)
    (by decide)

theorem parseTarget_ok {buf buf' : ByteReader} {path : Bytes}
    (h : parseTarget buf = .ok (path, buf')) :
    buf.Eats path buf' ∧ ∀ b ∈ path, IsTargetByte b := by
  unfold parseTarget at h
  split at h
  · cases h
  · rename_i found hf
    unfold findStop at hf
    rw [scanWide_eq] at hf
    obtain ⟨hlt, -, hmin⟩ := List.findIdx?_eq_some_iff_getElem.mp hf
    split at h
    · cases h
    · cases h
      have he := Eats.increment (r := buf) (Nat.le_of_lt hlt)
      have hslice : slice buf.inner buf.readPos (buf.readPos + found) = buf.rest.take found := by
        unfold slice ByteReader.rest
        rw [show buf.readPos + found - buf.readPos = found from by omega]
      rw [hslice]
      refine ⟨he, fun b hb => ?_⟩
      obtain ⟨j, hj, rfl⟩ := List.getElem_of_mem hb
      rw [List.getElem_take]
      exact isTargetByte_of_not_stop _ (by simpa using hmin j (by simp at hj; omega))

/-- What a head the tokenizer accepted is made of. -/
structure HeadText (buffer : Bytes) (maxHeaders : Nat) (head : RequestHead) : Prop where
  /-- What was read: text with no bare LF, then the CRLF of its last line and the empty line. -/
  text : ∃ text, (ByteReader.mk buffer 0).Eats (text ++ (crlf ++ crlf)) ⟨buffer, head.consumed⟩ ∧
    NoBareLf text
  method : head.method ≠ [] ∧ ∀ b ∈ head.method, isTokenChar b = true
  path : head.path ≠ [] ∧ head.path.length ≤ buffer.length ∧ ∀ b ∈ head.path, IsTargetByte b
  lines : ∀ line ∈ head.headers, line.WellFormed buffer
  count : head.headers.length ≤ maxHeaders

/-- **An accepted head.** -/
theorem httpParseRequestHeaders_ok {buffer : Bytes} {maxHeaders : Nat} {head : RequestHead}
    (h : httpParseRequestHeaders buffer maxHeaders = .ok head) :
    HeadText buffer maxHeaders head := by
  unfold httpParseRequestHeaders at h
  split at h
  · cases h
  rename_i b0 hskip
  have hr0 := skipEmptyLines_reads hskip
  split at h
  · cases h
  rename_i method methodLen b1 htok
  unfold parseToken at htok
  split at htok
  · cases htok
  rename_i start len b1' hscan
  cases htok
  obtain ⟨token, he1, hstart, hlen, htoken, hsp⟩ := scanToken_ok hscan
  dsimp only at h
  split at h
  · cases h
  rename_i path b2 htarget
  obtain ⟨he2, hpath⟩ := parseTarget_ok htarget
  split at h
  · cases h
  split at h
  · cases h
  rename_i hne
  rw [not_or] at hne
  split at h
  · cases h
  rename_i minor b3 hversion
  have hr3 := parseHttpVersion_reads hversion
  split at h
  · cases h
  rename_i byte hpeek
  split at h
  · cases h
  rename_i hcr
  rw [not_not] at hcr
  subst hcr
  split at h
  · cases h
  rename_i next hnext
  split at h
  · cases h
  rename_i hlf
  rw [not_not] at hlf
  subst hlf
  split at h
  · cases h
  rename_i headers b4 hheaders
  cases h
  -- the request line, up to its CRLF
  have htargetRead : (ByteReader.mk buffer 0).Reads b2 :=
    hr0.trans (Reads.trans ⟨token, he1, noBareLf_of_not_mem (lf_not_mem_token htoken)⟩
      ((Reads.peek hsp (by decide)).trans
        ((Reads.skipWhile (p := (· == whitespace)) (by decide) _ _).trans
          ⟨path, he2, noBareLf_of_not_mem
            (not_mem_lf_of_visible fun b hb => (hpath b hb).1)⟩)))
  have hpathLen : path.length ≤ buffer.length := by
    obtain ⟨_, hePath, _⟩ := htargetRead
    have hinner := he2.inner.symm.trans hePath.inner
    have hlen := congrArg List.length he2.rest
    rw [ByteReader.rest, List.length_append, List.length_drop, hinner] at hlen
    dsimp only at hlen
    omega
  obtain ⟨line, heLine, hnLine⟩ := htargetRead.trans
    ((Reads.skipWhile (p := (· == whitespace)) (by decide) _ _).trans hr3)
  have heCrlf := heLine.trans (Reads.crlf hpeek hnext)
  obtain ⟨⟨text, heText, hnText, hend⟩, hwf⟩ := parseHeaders_ok hheaders (by simp)
  have hinner : b4.inner = buffer := heText.inner.trans heCrlf.inner
  have hb4 : b4 = ⟨buffer, b4.readPos⟩ := by rw [← hinner]
  have hall := heCrlf.trans heText
  rw [hb4] at hall
  refine ⟨?_, ⟨?_, ?_⟩, ⟨?_, hpathLen, hpath⟩, ?_, ?_⟩
  · rcases hend with rfl | ⟨t, rfl⟩
    · exact ⟨line, by simpa using hall, hnLine⟩
    · refine ⟨line ++ crlf ++ t, by simpa using hall, ?_⟩
      exact (hnLine.append noBareLf_crlf).append hnText.of_append_left
  · have hs := Eats.slice_start (a := token) (b := []) (by simpa using he1)
    rw [he1.inner, hstart, hlen, hs]
    rintro rfl
    exact hne.1 hlen
  · have hs := Eats.slice_start (a := token) (b := []) (by simpa using he1)
    rw [he1.inner, hstart, hlen, hs]
    exact htoken
  · rintro rfl
    exact hne.2 rfl
  · rw [heCrlf.inner] at hwf
    exact hwf
  · simpa using length_parseHeaders_le hheaders

/-- The method an accepted head names was in the buffer. -/
theorem method_mem {buffer : Bytes} {maxHeaders : Nat} {head : RequestHead}
    (h : httpParseRequestHeaders buffer maxHeaders = .ok head) : ∀ b ∈ head.method, b ∈ buffer := by
  unfold httpParseRequestHeaders at h
  split at h
  · cases h
  next b0 hskip =>
  split at h
  · cases h
  next method methodLen b1 htok =>
  unfold parseToken at htok
  split at htok
  · cases htok
  next start len b1' hscan =>
  cases htok
  have hmem : ∀ b ∈ slice b1.inner start (start + methodLen), b ∈ buffer := by
    intro b hb
    obtain ⟨token, he1, -⟩ := scanToken_ok hscan
    obtain ⟨skipped, he0, -⟩ := skipEmptyLines_reads hskip
    have hinner : b1.inner = buffer := he1.inner.trans he0.inner
    rw [hinner] at hb
    exact List.mem_of_mem_drop (List.mem_of_mem_take hb)
  dsimp only at h
  split at h
  · cases h
  split at h
  · cases h
  split at h
  · cases h
  split at h
  · cases h
  split at h
  · cases h
  split at h
  · cases h
  split at h
  · cases h
  split at h
  · cases h
  split at h
  · cases h
  cases h
  exact hmem

end MojoHttp
