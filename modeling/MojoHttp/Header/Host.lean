import MojoHttp.Bytes

/-!
# The host and the scheme of a target

`_http_scheme_len` and `host_value_is_valid` of `header.mojo`. Their index `i` into the span
is here what is left of it from `i` on.
-/

namespace MojoHttp

/-- `_http_scheme_len`: the length of an `http://` or `https://` opening `target`, or 0. -/
def httpSchemeLen (target : Bytes) : Nat :=
  let n := target.length
  let lower := fun i => asciiLowerByte (target.getD i 0)
  if n < 7 then 0
  else if lower 0 ≠ 0x68 ∨ lower 1 ≠ 0x74 ∨ lower 2 ≠ 0x74 ∨ lower 3 ≠ 0x70 then 0
  else
    let i := if lower 4 = 0x73 then 5 else 4
    if i + 3 > n then 0
    else if target.getD i 0 ≠ 0x3A ∨ target.getD (i + 1) 0 ≠ 0x2F ∨ target.getD (i + 2) 0 ≠ 0x2F
    then 0
    else i + 3

def isHexdig (c : UInt8) : Bool :=
  (c ≥ 0x30 && c ≤ 0x39) || (c ≥ 0x41 && c ≤ 0x46) || (c ≥ 0x61 && c ≤ 0x66)

def isDigit (c : UInt8) : Bool := c ≥ 0x30 && c ≤ 0x39

/-- `_is_unreserved_or_sub_delim`. -/
def isUnreservedOrSubDelim (c : UInt8) : Bool :=
  if (c ≥ 0x61 && c ≤ 0x7A) || (c ≥ 0x41 && c ≤ 0x5A) || (c ≥ 0x30 && c ≤ 0x39) then true
  else
    c == 0x2D || c == 0x2E || c == 0x5F || c == 0x7E || c == 0x21 || c == 0x24 || c == 0x26
      || c == 0x27 || (c ≥ 0x28 && c ≤ 0x2C) || c == 0x3B || c == 0x3D

/-- IPvFuture, behind its `v`: what is left of the value, or `none` where it is refused. -/
def ipvFuture (s : Bytes) : Option Bytes :=
  let dot := s.dropWhile isHexdig
  if dot.length = s.length ∨ dot.head? ≠ some 0x2E then none
  else
    let chars := dot.tail
    let rest := chars.dropWhile fun c => isUnreservedOrSubDelim c || c == 0x3A
    if rest.length = chars.length then none else some rest

/-- IPv6address: hex digits, colons and dots, at least one colon. -/
def ipv6Address (s : Bytes) : Option Bytes :=
  let part := fun c => isHexdig c || c == 0x3A || c == 0x2E
  if (s.takeWhile part).count 0x3A = 0 then none else some (s.dropWhile part)

/-- A bracketed literal, behind its `[` and to behind its `]`. -/
def ipLiteral (s : Bytes) : Option Bytes :=
  let inner := match s with
    | 0x76 :: t => ipvFuture t
    | 0x56 :: t => ipvFuture t
    | _ => ipv6Address s
  match inner with
  | some (0x5D :: rest) => some rest
  | _ => none

/-- The reg-name loop: up to a `:` or the end, each `%` with its two hex digits. -/
def regName : Bytes → Option Bytes
  | [] => some []
  | c :: s =>
    if c = 0x3A then some (c :: s)
    else if c = 0x25 then
      match s with
      | a :: b :: rest => if isHexdig a && isHexdig b then regName rest else none
      | _ => none
    else if isUnreservedOrSubDelim c then regName s
    else none

/-- Nothing, or a `:` and digits. -/
def portIsValid : Bytes → Bool
  | [] => true
  | c :: s => c == 0x3A && s.all isDigit

def hostValueIsValid (value : Bytes) : Bool :=
  match value with
  | 0x5B :: s =>
    match ipLiteral s with
    | some rest => portIsValid rest
    | none => false
  | _ =>
    match regName value with
    | some rest => if rest.length = value.length then false else portIsValid rest
    | none => false

end MojoHttp
