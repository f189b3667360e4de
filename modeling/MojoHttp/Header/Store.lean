import MojoHttp.Header.Known

/-!
# `Headers`: entries as offsets into one append-only blob

The store as `header.mojo` lays it out: a blob of names and values back to back, an index of
four narrow words per entry, the entry index of each known name in a table of narrower words,
and a presence word that is never cleared.

* **`IndexWords`** — what a store into the index keeps of an integer: `packed` is the source's
  `Int32` and `Int16`, `unbounded` keeps everything.
* **`Headers.setBytesKnown`**, **`Headers.pop`** — the two writers.
* **`HeadersOp`** — a run of the writers, for the invariants of `Header.Refinement`.
-/

namespace MojoHttp

/-- The words the index is made of: what a store keeps of an offset or a length, and of an
entry index. -/
structure IndexWords where
  off : Int → Int
  entry : Int → Int

/-- `_idx: List[Int32]` and `_known: Array[Int16, _]`. -/
def IndexWords.packed : IndexWords where
  off x := x.bmod (2 ^ 32)
  entry x := x.bmod (2 ^ 16)

/-- Words that hold every integer. -/
def IndexWords.unbounded : IndexWords := ⟨id, id⟩

/-- One entry of `_idx`, its stride of four words. -/
structure IndexEntry where
  nameOff : Int
  nameLen : Int
  valueOff : Int
  valueLen : Int
  deriving Repr, DecidableEq

structure Headers where
  /-- Every name and value, back to back. Names are stored lowercased. -/
  buf : Bytes
  bufCapacity : Nat
  idx : List IndexEntry
  /-- In words, four to an entry. -/
  idxCapacity : Nat
  /-- One bit per name inserted, never cleared. -/
  present : UInt64
  /-- Entry index of each known name, or -1 while it is absent. -/
  known : KnownHeader → Int

namespace Headers

def empty : Headers := ⟨[], 0, [], 0, 0, fun _ => -1⟩

/-! ## Lookups -/

def count (h : Headers) : Nat := h.idx.length

/-- `Span(self._buf)[off : off + len]`. -/
def span (h : Headers) (off len : Int) : Bytes := slice h.buf off.toNat (off + len).toNat

/-- What reading past the index is taken to give; no lookup does. -/
def noEntry : IndexEntry := ⟨0, 0, 0, 0⟩

def valueSpan (h : Headers) (i : Nat) : Bytes :=
  let e := h.idx.getD i noEntry
  h.span e.valueOff e.valueLen

def nameSpan (h : Headers) (i : Nat) : Bytes :=
  let e := h.idx.getD i noEntry
  h.span e.nameOff e.nameLen

/-- `_name_matches`: only the probe is folded, the stored name is lowercase. -/
def nameMatches (h : Headers) (i : Nat) (probe : Bytes) : Bool :=
  let e := h.idx.getD i noEntry
  if e.nameLen ≠ probe.length then false
  else (List.range probe.length).all fun j =>
    h.buf.getD (e.nameOff + j).toNat 0 == asciiLowerByte (probe.getD j 0)

/-- An entry index as the table holds it; `none` is -1. -/
def tableIndex (i : Int) : Option Nat := if i < 0 then none else some i.toNat

/-- `known_index`. -/
def knownIndex (h : Headers) (kid : KnownHeader) : Option Nat := tableIndex (h.known kid)

/-- `_find_unknown`: the presence word first, then the scan it permits. -/
def findUnknown (h : Headers) (key : Bytes) : Option Nat :=
  if h.present &&& presenceBit key = 0 then none
  else (List.range h.count).find? fun i => h.nameMatches i key

/-- The lookup of a name already classified: the table for a known one, else the scan. -/
def findClassified (h : Headers) (key : Bytes) : Option KnownHeader → Option Nat
  | some kid => h.knownIndex kid
  | none => h.findUnknown key

/-- `_find`; `none` is -1. -/
def find (h : Headers) (key : Bytes) : Option Nat := h.findClassified key (knownHeaderId key)

/-- `__contains__`. -/
def contains (h : Headers) (key : Bytes) : Bool := (h.find key).isSome

def get (h : Headers) (key : Bytes) : Option Bytes := (h.find key).map h.valueSpan

def keys (h : Headers) : List Bytes := (List.range h.count).map h.nameSpan

/-- `total = total * 10 + (d - 0x30)` over the digits; `none` at a byte that is no digit. -/
def digitsValue : Bytes → Nat → Option Nat
  | [], total => some total
  | d :: ds, total =>
    if d < 0x30 ∨ d > 0x39 then none else digitsValue ds (total * 10 + (d - 0x30).toNat)

/-- `content_length`: 0 if absent or malformed. The sum is an `Int` of the source, which wraps
past 2^63. -/
def contentLength (h : Headers) : Int :=
  match h.find KnownHeader.contentLength.name with
  | none => 0
  | some i =>
    let value := h.valueSpan i
    if value.length = 0 then 0
    else match digitsValue value 0 with
      | none => 0
      | some total => (total : Int).bmod (2 ^ 64)

/-! ## Writers -/

/-- `List.reserve`: exactly what is asked for, and never less than there is. -/
def reserve (h : Headers) (bytes entries : Int) : Headers :=
  { h with
    bufCapacity := max h.bufCapacity bytes.toNat
    idxCapacity := max h.idxCapacity (4 * entries).toNat }

/-- The vector turns of the name's copy: eight bytes at a time, each upper-case lane with its
bit 0x20 set. -/
def lowercaseLanes : (turns : Nat) → Bytes → Bytes
  | 0, src => src.map asciiLowerByte
  | turns + 1, src =>
    if 8 ≤ src.length then
      (src.take 8).map (fun w => if w ≥ 0x41 && w ≤ 0x5A then w ||| 0x20 else w)
        ++ lowercaseLanes turns (src.drop 8)
    else src.map asciiLowerByte

/-- The blob's capacity once `needed` bytes fit: at least doubled when it grows. -/
def grownBuf (h : Headers) (needed : Nat) : Nat :=
  if h.bufCapacity < needed then
    let grown := max (h.bufCapacity * 2) 128
    max h.bufCapacity (if needed > grown then needed else grown)
  else h.bufCapacity

/-- The index's capacity once four more words fit. -/
def grownIdx (h : Headers) : Nat :=
  if h.idxCapacity < 4 * h.idx.length + 4 then max h.idxCapacity (max (h.idxCapacity * 2) 32)
  else h.idxCapacity

/-- `_set_bytes` of a name that stands at entry `i`: the value is appended and the entry
repointed. Room was made for the name too. -/
def overwriteValue (w : IndexWords) (h : Headers) (i : Nat) (name value : Bytes) : Headers :=
  { h with
    buf := h.buf ++ value
    bufCapacity := h.grownBuf (h.buf.length + value.length + name.length)
    idx := h.idx.modify i fun e =>
      { e with valueOff := w.off h.buf.length, valueLen := w.off value.length } }

/-- `_set_bytes` of a new name: the value, the lowercased name, one more entry. -/
def insertEntry (w : IndexWords) (h : Headers) (name value : Bytes)
    (kid : Option KnownHeader) : Headers :=
  let vOff := h.buf.length
  let nOff := vOff + value.length
  { buf := h.buf ++ value ++ lowercaseLanes name.length name
    bufCapacity := h.grownBuf (h.buf.length + value.length + name.length)
    idx := h.idx ++ [⟨w.off nOff, w.off name.length, w.off vOff, w.off value.length⟩]
    idxCapacity := h.grownIdx
    known := match kid with
      | some kid => Function.update h.known kid (w.entry h.count)
      | none => h.known
    present := h.present ||| presenceBit name }

/-- `_set_bytes`, with the name already classified. -/
def setBytesKnown (w : IndexWords) (h : Headers) (name value : Bytes)
    (kid : Option KnownHeader) : Headers :=
  match h.findClassified name kid with
  | some i => h.overwriteValue w i name value
  | none => h.insertEntry w name value kid

def setBytes (w : IndexWords) (h : Headers) (name value : Bytes) : Headers :=
  h.setBytesKnown w name value (knownHeaderId name)

/-- `while n > 0: pos -= 1; digits[pos] = 0x30 + n % 10; n //= 10`; the array is 20 bytes. -/
def writeDigits : (pos n : Nat) → (digits : Bytes) → Bytes
  | 0, _, digits => digits
  | pos + 1, n, digits =>
    if n > 0 then writeDigits pos (n / 10) (UInt8.ofNat (0x30 + n % 10) :: digits) else digits

/-- The text `set_int_known` writes: a negative value is clamped to 0. -/
def intDigits (value : Int64) : Bytes :=
  let n := if value < 0 then 0 else value
  if n = 0 then [0x30] else writeDigits 20 n.toInt.toNat []

/-- `set_int_known`. -/
def setIntKnown (w : IndexWords) (h : Headers) (kid : Option KnownHeader) (name : Bytes)
    (value : Int64) : Headers :=
  h.setBytesKnown w name (intDigits value) kid

def setInt (w : IndexWords) (h : Headers) (key : Bytes) (value : Int64) : Headers :=
  h.setIntKnown w (knownHeaderId key) key value

/-- `pop`'s loop over the entries left: each known name's index again. -/
def rebuildKnown (w : IndexWords) (h : Headers) : Headers :=
  { h with
    known := (List.range h.count).foldl
      (fun known e =>
        match knownHeaderId (h.nameSpan e) with
        | some kid => Function.update known kid (w.entry e)
        | none => known)
      fun _ => -1 }

def pop (w : IndexWords) (h : Headers) (key : Bytes) : Headers :=
  match h.find key with
  | none => h
  | some i => rebuildKnown w { h with idx := h.idx.eraseIdx i }

end Headers

/-! ## Runs -/

/-- One call of a writer. -/
inductive HeadersOp where
  | setBytes (name value : Bytes)
  | setInt (key : Bytes) (value : Int64)
  | pop (key : Bytes)
  | reserve (bytes entries : Int)
  deriving Repr, DecidableEq

def Headers.apply (w : IndexWords) (h : Headers) : HeadersOp → Headers
  | .setBytes name value => h.setBytes w name value
  | .setInt key value => h.setInt w key value
  | .pop key => h.pop w key
  | .reserve bytes entries => h.reserve bytes entries

/-- The store a sequence of calls leaves, from the empty one. -/
def Headers.run (w : IndexWords) (ops : List HeadersOp) : Headers :=
  ops.foldl (Headers.apply w) Headers.empty

end MojoHttp
