import Mathlib.Data.List.Basic

/-!
# HMAC (RFC 2104)

The keyed hash over any hash function `hash` with blocks of `blockSize` bytes.
-/

namespace Rfc2104

variable (hash : List UInt8 → List UInt8) (blockSize : Nat)

/-- The key of one block: hashed first where it is longer, zeros behind it. -/
def blockKey (key : List UInt8) : List UInt8 :=
  let k := if key.length > blockSize then hash key else key
  k ++ List.replicate (blockSize - k.length) 0

/-- `H(K XOR opad, H(K XOR ipad, text))`. -/
def hmac (key text : List UInt8) : List UInt8 :=
  let k := blockKey hash blockSize key
  hash (k.map (· ^^^ 0x5C) ++ hash (k.map (· ^^^ 0x36) ++ text))

end Rfc2104
