import Mathlib.Data.List.Basic

/-!
# The host of a URI (RFC 3986, section 3.2.2)

The grammar of `host [ ":" port ]`, apart from who reads it.

* **`Host`** — a reg-name that is not empty, or one of the two bracketed literals.
* **`HostPort`** — a host, and behind a colon any number of digits.
-/

namespace Rfc3986

abbrev Digit (c : UInt8) : Prop := 0x30 ≤ c ∧ c ≤ 0x39

abbrev Alpha (c : UInt8) : Prop := (0x61 ≤ c ∧ c ≤ 0x7A) ∨ (0x41 ≤ c ∧ c ≤ 0x5A)

/-- `HEXDIG`, in either case. -/
abbrev HexDigit (c : UInt8) : Prop := Digit c ∨ (0x41 ≤ c ∧ c ≤ 0x46) ∨ (0x61 ≤ c ∧ c ≤ 0x66)

/-- `ALPHA / DIGIT / "-" / "." / "_" / "~"` -/
abbrev Unreserved (c : UInt8) : Prop :=
  Alpha c ∨ Digit c ∨ c ∈ [(0x2D : UInt8), 0x2E, 0x5F, 0x7E]

/-- `"!" / "$" / "&" / "'" / "(" / ")" / "*" / "+" / "," / ";" / "="` -/
abbrev SubDelim (c : UInt8) : Prop :=
  c ∈ [(0x21 : UInt8), 0x24, 0x26, 0x27, 0x28, 0x29, 0x2A, 0x2B, 0x2C, 0x3B, 0x3D]

/-- `*( unreserved / pct-encoded / sub-delims )` -/
inductive RegName : List UInt8 → Prop where
  | nil : RegName []
  | char {c : UInt8} {s : List UInt8} (hc : Unreserved c ∨ SubDelim c) (hs : RegName s) : RegName (c :: s)
  | escape {d e : UInt8} {s : List UInt8} (hd : HexDigit d) (he : HexDigit e) (hs : RegName s) :
      RegName (0x25 :: d :: e :: s)

/-- `"v" 1*HEXDIG "." 1*( unreserved / sub-delims / ":" )`, behind the `v`. -/
def FutureTail (s : List UInt8) : Prop :=
  ∃ hex chars, s = hex ++ 0x2E :: chars ∧ hex ≠ [] ∧ (∀ c ∈ hex, HexDigit c) ∧ chars ≠ [] ∧
    ∀ c ∈ chars, Unreserved c ∨ SubDelim c ∨ c = 0x3A

/-- Hex digits, colons and dots, and one colon at least: what an IPv6 address is taken to be. -/
def V6Like (s : List UInt8) : Prop :=
  (∀ c ∈ s, HexDigit c ∨ c = 0x3A ∨ c = 0x2E) ∧ 0x3A ∈ s

inductive Host : List UInt8 → Prop where
  | regName {s : List UInt8} (hs : RegName s) (hne : s ≠ []) : Host s
  | future {v : UInt8} {s : List UInt8} (hv : v = 0x76 ∨ v = 0x56) (hs : FutureTail s) :
      Host (0x5B :: v :: (s ++ [0x5D]))
  | v6 {s : List UInt8} (hs : V6Like s) : Host (0x5B :: (s ++ [0x5D]))

/-- `uri-host [ ":" port ]`, the port `*DIGIT`. -/
def HostPort (value : List UInt8) : Prop :=
  Host value ∨ ∃ host port, value = host ++ 0x3A :: port ∧ Host host ∧ ∀ c ∈ port, Digit c

/-! ## The bytes of a host -/

/-- The bytes a host and its port may hold. -/
abbrev HostByte (c : UInt8) : Prop :=
  Unreserved c ∨ SubDelim c ∨ c ∈ [(0x25 : UInt8), 0x3A, 0x5B, 0x5D]

theorem HexDigit.unreserved {c : UInt8} (h : HexDigit c) : Unreserved c := by
  rcases h with hdigit | ⟨hlo, hhi⟩ | ⟨hlo, hhi⟩
  · exact Or.inr (Or.inl hdigit)
  · exact Or.inl (Or.inr ⟨hlo, UInt8.le_trans hhi (by decide)⟩)
  · exact Or.inl (Or.inl ⟨hlo, UInt8.le_trans hhi (by decide)⟩)

theorem RegName.bytes {s : List UInt8} (h : RegName s) : ∀ c ∈ s, HostByte c ∧ c ≠ 0x3A := by
  have hcolon : ∀ c, Unreserved c ∨ SubDelim c → c ≠ 0x3A := by
    rintro c hc rfl
    exact absurd hc (by decide)
  induction h with
  | nil => exact List.forall_mem_nil _
  | char hc _ ih =>
    refine List.forall_mem_cons.mpr ⟨⟨?_, hcolon _ hc⟩, ih⟩
    exact hc.imp id Or.inl
  | escape hd he _ ih =>
    refine List.forall_mem_cons.mpr ⟨⟨by decide, by decide⟩, List.forall_mem_cons.mpr ⟨⟨?_, ?_⟩,
      List.forall_mem_cons.mpr ⟨⟨?_, ?_⟩, ih⟩⟩⟩
    · exact Or.inl hd.unreserved
    · exact hcolon _ (Or.inl hd.unreserved)
    · exact Or.inl he.unreserved
    · exact hcolon _ (Or.inl he.unreserved)

theorem FutureTail.bytes {s : List UInt8} (h : FutureTail s) : ∀ c ∈ s, HostByte c := by
  obtain ⟨hex, chars, rfl, -, hhex, -, hchars⟩ := h
  intro c hc
  rcases List.mem_append.mp hc with hc | hc
  · exact Or.inl (hhex c hc).unreserved
  · rcases List.mem_cons.mp hc with rfl | hc
    · decide
    · rcases hchars c hc with hc | hc | rfl
      · exact Or.inl hc
      · exact Or.inr (Or.inl hc)
      · decide

theorem V6Like.bytes {s : List UInt8} (h : V6Like s) : ∀ c ∈ s, HostByte c := by
  intro c hc
  rcases h.1 c hc with hc | rfl | rfl
  · exact Or.inl hc.unreserved
  · decide
  · decide

theorem Host.bytes {s : List UInt8} (h : Host s) : ∀ c ∈ s, HostByte c := by
  have hbracketed : ∀ t, (∀ c ∈ t, HostByte c) → ∀ c ∈ 0x5B :: (t ++ [0x5D]), HostByte c := by
    intro t ht
    refine List.forall_mem_cons.mpr ⟨by decide, List.forall_mem_append.mpr ⟨ht, ?_⟩⟩
    exact List.forall_mem_singleton.mpr (by decide)
  cases h with
  | regName hs _ => exact fun c hc => (hs.bytes c hc).1
  | @future v s hv hs =>
    refine hbracketed (v :: s) (List.forall_mem_cons.mpr ⟨?_, hs.bytes⟩)
    rcases hv with rfl | rfl <;> decide
  | v6 hs => exact hbracketed _ hs.bytes

theorem HostPort.bytes {value : List UInt8} (h : HostPort value) : ∀ c ∈ value, HostByte c := by
  rcases h with hhost | ⟨host, port, rfl, hhost, hport⟩
  · exact hhost.bytes
  · refine List.forall_mem_append.mpr ⟨hhost.bytes, List.forall_mem_cons.mpr ⟨by decide, ?_⟩⟩
    exact fun c hc => Or.inl (Or.inr (Or.inl (hport c hc)))

end Rfc3986
