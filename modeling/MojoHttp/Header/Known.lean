import MojoHttp.Bytes

/-!
# The known header names

The ten names the server itself asks a `Headers` about, and the presence word that lets a
lookup of any other name answer "absent" without a scan.

* **`knownHeaderId_eq_some`** — the classifier's length and first-byte tests lose nothing: it
  names a header exactly when the folded name is that header's.
* **`presenceBit_asciiLowercase`** — a name and its folded form share a bit, and the bit is
  never 0, so a clear bit proves the name absent.
-/

namespace MojoHttp

/-- `KH_*`. -/
inductive KnownHeader where
  | contentLength
  | contentType
  | connection
  | transferEncoding
  | host
  | date
  | cookie
  | upgrade
  | expect
  | server
  deriving Repr, DecidableEq

/-- The `HeaderKey` constant of a `KH_*` name. -/
def KnownHeader.name : KnownHeader → Bytes
  | .contentLength => ascii "content-length"
  | .contentType => ascii "content-type"
  | .connection => ascii "connection"
  | .transferEncoding => ascii "transfer-encoding"
  | .host => ascii "host"
  | .date => ascii "date"
  | .cookie => ascii "cookie"
  | .upgrade => ascii "upgrade"
  | .expect => ascii "expect"
  | .server => ascii "server"

/-- `kid` if `name` is that header's. -/
def KnownHeader.ifNamed (kid : KnownHeader) (name : Bytes) : Option KnownHeader :=
  if nameIs name kid.name then some kid else none

/-- `known_header_id`; `none` is -1. -/
def knownHeaderId (name : Bytes) : Option KnownHeader :=
  let n := name.length
  if n < 4 ∨ n > 17 then none
  else
    let first := asciiLowerByte (name.getD 0 0)
    if n = 14 then
      if first = 0x63 then KnownHeader.contentLength.ifNamed name else none
    else if n = 12 then
      if first = 0x63 then KnownHeader.contentType.ifNamed name else none
    else if n = 10 then
      if first = 0x63 then KnownHeader.connection.ifNamed name else none
    else if n = 17 then
      if first = 0x74 then KnownHeader.transferEncoding.ifNamed name else none
    else if n = 4 then
      if first = 0x68 then KnownHeader.host.ifNamed name
      else if first = 0x64 then KnownHeader.date.ifNamed name
      else none
    else if n = 6 then
      if first = 0x63 then KnownHeader.cookie.ifNamed name
      else if first = 0x65 then KnownHeader.expect.ifNamed name
      else if first = 0x73 then KnownHeader.server.ifNamed name
      else none
    else if n = 7 then
      if first = 0x75 then KnownHeader.upgrade.ifNamed name else none
    else none

theorem KnownHeader.ifNamed_eq_some {kid k : KnownHeader} {name : Bytes} :
    kid.ifNamed name = some k ↔ k = kid ∧ asciiLowercase name = kid.name := by
  unfold ifNamed
  split
  · rename_i h
    rw [nameIs_iff] at h
    simp [h, eq_comm]
  · rename_i h
    rw [nameIs_iff] at h
    simp [h]

/-- What either branch answers has what both have. -/
theorem of_ite_eq {α : Type} {c : Prop} [Decidable c] {a b r : α} {P : Prop} (ha : a = r → P)
    (hb : b = r → P) : (if c then a else b) = r → P := by
  split
  · exact ha
  · exact hb

theorem asciiLowerByte_getD (name : Bytes) (i : Nat) (h : i < name.length) :
    asciiLowerByte (name.getD i 0) = (asciiLowercase name).getD i 0 := by
  have h' : i < (asciiLowercase name).length := by simpa using h
  rw [List.getD_eq_getElem _ _ h, List.getD_eq_getElem _ _ h']
  simp [asciiLowercase]

/-- **The classifier is a comparison of folded names.** -/
theorem knownHeaderId_eq_some {name : Bytes} {k : KnownHeader} :
    knownHeaderId name = some k ↔ asciiLowercase name = k.name := by
  constructor
  · intro h
    unfold knownHeaderId at h
    dsimp only at h
    have hpick : ∀ kid : KnownHeader, kid.ifNamed name = some k →
        asciiLowercase name = k.name := by
      intro kid hk
      obtain ⟨rfl, hname⟩ := KnownHeader.ifNamed_eq_some.mp hk
      exact hname
    have hnone : (none : Option KnownHeader) = some k → asciiLowercase name = k.name := nofun
    revert h
    repeat' first
      | exact hpick _
      | exact hnone
      | apply of_ite_eq
  · intro h
    have hlen : name.length = k.name.length := by rw [← h, length_asciiLowercase]
    have hfirst : name.length ≠ 0 → asciiLowerByte (name.getD 0 0) = k.name.getD 0 0 := by
      intro hne
      rw [asciiLowerByte_getD name 0 (by omega), h]
    have hnamed : k.ifNamed name = some k := KnownHeader.ifNamed_eq_some.mpr ⟨rfl, h⟩
    unfold knownHeaderId
    cases k <;>
      (rw [hlen] at hfirst ⊢
       have hb := hfirst (by decide)
       dsimp only
       rw [hb]
       exact hnamed)

theorem knownHeaderId_eq_none {name : Bytes} :
    knownHeaderId name = none ↔ ∀ k : KnownHeader, asciiLowercase name ≠ k.name := by
  rw [Option.eq_none_iff_forall_ne_some]
  exact forall_congr' fun k => not_congr knownHeaderId_eq_some

@[simp] theorem knownHeaderId_name (k : KnownHeader) : knownHeaderId k.name = some k := by
  cases k <;> decide

theorem asciiLowercase_name (k : KnownHeader) : asciiLowercase k.name = k.name :=
  knownHeaderId_eq_some.mp (knownHeaderId_name k)

theorem KnownHeader.name_injective {k j : KnownHeader} (h : k.name = j.name) : k = j := by
  have hk := knownHeaderId_name k
  rw [h, knownHeaderId_name, Option.some_inj] at hk
  exact hk.symm

/-! ## The presence word -/

/-- `_presence_bit`: length, first byte and last byte, folded, modulo the word's 64 bits. -/
def presenceBit (name : Bytes) : UInt64 :=
  let n := name.length
  if n = 0 then 1
  else
    let h := n * 5 + (asciiLowerByte (name.getD 0 0)).toNat * 3
      + (asciiLowerByte (name.getD (n - 1) 0)).toNat
    1 <<< UInt64.ofNat (h % 64)

theorem presenceBit_asciiLowercase (name : Bytes) :
    presenceBit (asciiLowercase name) = presenceBit name := by
  unfold presenceBit
  simp only [length_asciiLowercase]
  split
  · rfl
  · rename_i h
    have h' : name.length - 1 < name.length := by omega
    rw [← asciiLowerByte_getD name 0 (by omega), ← asciiLowerByte_getD name _ h',
      asciiLowerByte_idem, asciiLowerByte_idem]

theorem presenceBit_ne_zero (name : Bytes) : presenceBit name ≠ 0 := by
  have hbit : ∀ n : Fin 64, (1 : UInt64) <<< UInt64.ofNat n ≠ 0 := by decide
  unfold presenceBit
  dsimp only
  split
  · decide
  · exact hbit ⟨_, Nat.mod_lt _ (by decide)⟩

end MojoHttp
