import MojoHttp.Header.Host
import MojoHttp.Lib.Rfc3986Host

/-!
# The grammar of a `Host` value

`host_value_is_valid` accepts `uri-host [ ":" port ]`. Each of its loops leaves what stands behind
the part it reads, and the part is what the grammar has there.

* **`regName_eq_some`**, **`ipLiteral_eq_some`** — the two kinds of host.
* **`hostValueIsValid_iff`** — the whole value.
-/

namespace MojoHttp

open BytesConstant Rfc3986

theorem isHexdig_iff (c : UInt8) : isHexdig c = true ↔ HexDigit c := by
  simp [isHexdig, HexDigit, Digit, or_assoc]

theorem isDigit_iff (c : UInt8) : isDigit c = true ↔ Digit c := by
  simp [isDigit, Digit]

theorem isUnreservedOrSubDelim_iff (c : UInt8) :
    isUnreservedOrSubDelim c = true ↔ Unreserved c ∨ SubDelim c := by
  -- five sub-delims stand in a row, and the source compares with their ends
  have hrow : 0x28 ≤ c ∧ c ≤ 0x2C ↔ c = 0x28 ∨ c = 0x29 ∨ c = 0x2A ∨ c = 0x2B ∨ c = 0x2C := by
    simp only [← UInt8.toNat_inj, UInt8.le_iff_toNat_le, UInt8.reduceToNat]
    omega
  simp [isUnreservedOrSubDelim, Unreserved, SubDelim, Alpha, Digit, hrow, or_assoc]

/-! ## Runs -/

/-- A run up to a byte that is not of its kind. -/
theorem dropWhile_run {p : UInt8 → Bool} {a : Bytes} (ha : ∀ c ∈ a, p c = true) {c : UInt8}
    (hc : p c = false) (b : Bytes) :
    (a ++ c :: b).takeWhile p = a ∧ (a ++ c :: b).dropWhile p = c :: b := by
  have hnot : ¬p c = true := by
    rw [hc]
    exact Bool.false_ne_true
  rw [List.takeWhile_append_of_pos ha, List.dropWhile_append_of_pos ha,
    List.takeWhile_cons_of_neg hnot, List.dropWhile_cons_of_neg hnot, List.append_nil]
  exact ⟨rfl, rfl⟩

/-! ## The bracketed literals -/

theorem ipvFuture_eq_some {s rest : Bytes} :
    ipvFuture s = some (0x5D :: rest) ↔ ∃ t, FutureTail t ∧ s = t ++ 0x5D :: rest := by
  constructor
  · intro h
    unfold ipvFuture at h
    dsimp only at h
    split at h
    · cases h
    · next hdot =>
      split at h
      · cases h
      · next hchars =>
        rw [not_or, not_not] at hdot
        have hhead := hdot.2
        obtain ⟨chars, hbehind⟩ := List.head?_eq_some_iff.mp hhead
        have hsplit := List.takeWhile_append_dropWhile (p := isHexdig) (l := s)
        have hsplit' := List.takeWhile_append_dropWhile
          (p := fun c => isUnreservedOrSubDelim c || c == 0x3A) (l := chars)
        rw [hbehind, List.tail_cons] at h hchars
        rw [Option.some.inj h] at hsplit'
        refine ⟨s.takeWhile isHexdig ++ 0x2E :: chars.takeWhile
            (fun c => isUnreservedOrSubDelim c || c == 0x3A), ⟨_, _, rfl, ?_, ?_, ?_, ?_⟩, ?_⟩
        · intro hnil
          rw [hnil, List.nil_append] at hsplit
          exact hdot.1 (by rw [hsplit])
        · exact fun c hc => (isHexdig_iff c).mp (List.mem_takeWhile_imp hc)
        · intro hnil
          rw [hnil, List.nil_append] at hsplit'
          exact hchars (by rw [Option.some.inj h, hsplit'])
        · intro c hc
          have hpart := List.mem_takeWhile_imp hc
          rw [Bool.or_eq_true, isUnreservedOrSubDelim_iff, beq_iff_eq, or_assoc] at hpart
          exact hpart
        · rw [List.append_assoc, List.cons_append, hsplit', ← hbehind, hsplit]
  · rintro ⟨t, ⟨hex, chars, rfl, hhexne, hhex, hcharsne, hchars⟩, rfl⟩
    have hrun := dropWhile_run (p := isHexdig) (fun c hc => (isHexdig_iff c).mpr (hhex c hc))
      (show isHexdig 0x2E = false by decide) (chars ++ 0x5D :: rest)
    have hrun' := dropWhile_run (p := fun c => isUnreservedOrSubDelim c || c == 0x3A) (a := chars)
      (fun c hc => by
        rw [Bool.or_eq_true, isUnreservedOrSubDelim_iff, beq_iff_eq, or_assoc]
        exact hchars c hc)
      (show (isUnreservedOrSubDelim 0x5D || (0x5D : UInt8) == 0x3A) = false by decide) rest
    have hhexlen := List.length_pos_iff.mpr hhexne
    have hcharslen := List.length_pos_iff.mpr hcharsne
    unfold ipvFuture
    dsimp only
    rw [List.append_assoc, List.cons_append, hrun.2, if_neg, List.tail_cons, hrun'.2, if_neg]
    · simp only [List.length_append, List.length_cons]
      omega
    · rw [not_or, not_not]
      refine ⟨?_, rfl⟩
      simp only [List.length_append, List.length_cons]
      omega

theorem ipv6Address_eq_some {s rest : Bytes} :
    ipv6Address s = some (0x5D :: rest) ↔ ∃ t, V6Like t ∧ s = t ++ 0x5D :: rest := by
  have hpart : ∀ c, (isHexdig c || c == 0x3A || c == 0x2E) = true ↔ HexDigit c ∨ c = 0x3A ∨ c = 0x2E := by
    intro c
    rw [Bool.or_eq_true, Bool.or_eq_true, isHexdig_iff, beq_iff_eq, beq_iff_eq, or_assoc]
  unfold ipv6Address
  dsimp only
  constructor
  · intro h
    split at h
    · cases h
    · next hcolon =>
      refine ⟨s.takeWhile fun c => isHexdig c || c == 0x3A || c == 0x2E, ⟨?_, ?_⟩, ?_⟩
      · intro c hc
        exact (hpart c).mp (List.mem_takeWhile_imp (p := fun c => isHexdig c || c == 0x3A || c == 0x2E) hc)
      · exact List.count_pos_iff.mp (Nat.pos_of_ne_zero hcolon)
      · rw [← Option.some.inj h, List.takeWhile_append_dropWhile]
  · rintro ⟨t, ⟨hall, hcolon⟩, rfl⟩
    have hrun := dropWhile_run (p := fun c => isHexdig c || c == 0x3A || c == 0x2E)
      (fun c hc => (hpart c).mpr (hall c hc))
      (show (isHexdig 0x5D || (0x5D : UInt8) == 0x3A || (0x5D : UInt8) == 0x2E) = false by decide) rest
    rw [hrun.1, hrun.2, if_neg (Nat.ne_of_gt (List.count_pos_iff.mpr hcolon))]

theorem ipLiteral_eq_some {s rest : Bytes} :
    ipLiteral s = some rest ↔
      (∃ v t, (v = 0x76 ∨ v = 0x56) ∧ FutureTail t ∧ s = v :: (t ++ 0x5D :: rest)) ∨
        ∃ t, V6Like t ∧ s = t ++ 0x5D :: rest := by
  constructor
  · intro h
    unfold ipLiteral at h
    dsimp only at h
    split at h
    · next rest' hinner =>
      obtain rfl := Option.some.inj h
      split at hinner
      · obtain ⟨t, ht, rfl⟩ := ipvFuture_eq_some.mp hinner
        exact Or.inl ⟨_, t, Or.inl rfl, ht, rfl⟩
      · obtain ⟨t, ht, rfl⟩ := ipvFuture_eq_some.mp hinner
        exact Or.inl ⟨_, t, Or.inr rfl, ht, rfl⟩
      · exact Or.inr (ipv6Address_eq_some.mp hinner)
    · cases h
  · rintro (⟨v, t, rfl | rfl, ht, rfl⟩ | ⟨t, ht, rfl⟩)
    · have hfuture : ipvFuture (t ++ 0x5D :: rest) = some (0x5D :: rest) :=
        ipvFuture_eq_some.mpr ⟨t, ht, rfl⟩
      simp only [ipLiteral, hfuture]
    · have hfuture : ipvFuture (t ++ 0x5D :: rest) = some (0x5D :: rest) :=
        ipvFuture_eq_some.mpr ⟨t, ht, rfl⟩
      simp only [ipLiteral, hfuture]
    · unfold ipLiteral
      dsimp only
      -- the letter that opens an IPvFuture is in no IPv6 address
      have hletter : ∀ v u, (v = 0x76 ∨ v = 0x56) → t ++ 0x5D :: rest ≠ v :: u := by
        intro v u hv heq
        cases t with
        | nil => cases ht.2
        | cons c t =>
          have hc := ht.1 c List.mem_cons_self
          rw [(List.cons.inj heq).1] at hc
          rcases hv with rfl | rfl <;> exact absurd hc (by decide)
      split
      · next hinner =>
        split at hinner
        · next heq => exact absurd heq (hletter _ _ (Or.inl rfl))
        · next heq => exact absurd heq (hletter _ _ (Or.inr rfl))
        · rw [ipv6Address_eq_some.mpr ⟨t, ht, rfl⟩] at hinner
          cases hinner
          rfl
      · next hinner =>
        refine absurd ?_ (hinner rest)
        split
        · next heq => exact absurd heq (hletter _ _ (Or.inl rfl))
        · next heq => exact absurd heq (hletter _ _ (Or.inr rfl))
        · exact ipv6Address_eq_some.mpr ⟨t, ht, rfl⟩

/-! ## The reg-name -/

theorem regName_colon (s : Bytes) : regName (0x3A :: s) = some (0x3A :: s) := by
  rw [regName.eq_def]
  rfl

theorem regName_char {c : UInt8} (hc : isUnreservedOrSubDelim c = true) (s : Bytes) :
    regName (c :: s) = regName s := by
  have hne : c ≠ 0x3A ∧ c ≠ 0x25 := by
    constructor <;> rintro rfl <;> exact absurd hc (by decide)
  rw [regName.eq_def]
  dsimp only
  rw [if_neg hne.1, if_neg hne.2, if_pos hc]

theorem regName_escape (a b : UInt8) (s : Bytes) :
    regName (0x25 :: a :: b :: s) = if isHexdig a && isHexdig b then regName s else none := by
  rw [regName.eq_def]
  rfl

/-- The loop stops at a colon or at the end. -/
theorem regName_eq_some {s rest : Bytes} :
    regName s = some rest ↔
      ∃ t, RegName t ∧ s = t ++ rest ∧ ∀ c, rest.head? = some c → c = 0x3A := by
  constructor
  · intro h
    induction s using regName.induct generalizing rest with
    | case1 =>
      obtain rfl := Option.some.inj h
      exact ⟨[], .nil, rfl, fun c hc => by cases hc⟩
    | case2 s =>
      rw [regName_colon] at h
      obtain rfl := Option.some.inj h
      exact ⟨[], .nil, rfl, fun c hc => (Option.some.inj hc).symm⟩
    | case3 a b s hhex _ ih =>
      rw [regName_escape, if_pos hhex] at h
      obtain ⟨t, ht, rfl, hstop⟩ := ih h
      rw [Bool.and_eq_true, isHexdig_iff, isHexdig_iff] at hhex
      exact ⟨_, ht.escape hhex.1 hhex.2, rfl, hstop⟩
    | case4 a b s hhex =>
      rw [regName_escape, if_neg hhex] at h
      cases h
    | case5 s hshort =>
      rw [regName.eq_def] at h
      dsimp only at h
      rw [if_neg (by decide), if_pos rfl] at h
      split at h
      · exact (hshort _ _ _ rfl).elim
      · cases h
    | case6 c s hcolon hpercent hpart ih =>
      rw [regName_char hpart] at h
      obtain ⟨t, ht, rfl, hstop⟩ := ih h
      exact ⟨_, ht.char ((isUnreservedOrSubDelim_iff c).mp hpart), rfl, hstop⟩
    | case7 c s hcolon hpercent hpart =>
      rw [regName.eq_def] at h
      dsimp only at h
      rw [if_neg hcolon, if_neg hpercent, if_neg hpart] at h
      cases h
  · rintro ⟨t, ht, rfl, hstop⟩
    induction ht with
    | nil =>
      cases rest with
      | nil => rfl
      | cons c rest =>
        obtain rfl := hstop c rfl
        exact regName_colon rest
    | char hc _ ih =>
      rw [List.cons_append, regName_char ((isUnreservedOrSubDelim_iff _).mpr hc)]
      exact ih
    | escape hd he _ ih =>
      rw [List.cons_append, List.cons_append, List.cons_append, regName_escape,
        (isHexdig_iff _).mpr hd, (isHexdig_iff _).mpr he]
      exact ih

/-! ## The value -/

theorem portIsValid_iff {s : Bytes} :
    portIsValid s = true ↔ s = [] ∨ ∃ port, s = 0x3A :: port ∧ ∀ c ∈ port, Digit c := by
  cases s with
  | nil => exact iff_of_true rfl (Or.inl rfl)
  | cons c s =>
    rw [portIsValid, Bool.and_eq_true, beq_iff_eq, List.all_eq_true]
    simp only [isDigit_iff]
    constructor
    · rintro ⟨rfl, hdigits⟩
      exact Or.inr ⟨s, rfl, hdigits⟩
    · rintro (hnil | ⟨port, heq, hdigits⟩)
      · cases hnil
      · obtain ⟨rfl, rfl⟩ := List.cons.inj heq
        exact ⟨rfl, hdigits⟩

/-- A host behind which a port may stand. -/
theorem hostPort_iff {value : Bytes} :
    HostPort value ↔ ∃ host rest, value = host ++ rest ∧ Host host ∧ portIsValid rest = true := by
  constructor
  · rintro (hhost | ⟨host, port, rfl, hhost, hport⟩)
    · exact ⟨value, [], (List.append_nil value).symm, hhost, rfl⟩
    · exact ⟨host, _, rfl, hhost, portIsValid_iff.mpr (Or.inr ⟨port, rfl, hport⟩)⟩
  · rintro ⟨host, rest, rfl, hhost, hport⟩
    rcases portIsValid_iff.mp hport with rfl | ⟨port, rfl, hdigits⟩
    · rw [List.append_nil]
      exact Or.inl hhost
    · exact Or.inr ⟨host, port, rfl, hhost, hdigits⟩

theorem hostValueIsValid_bracket (s : Bytes) :
    hostValueIsValid (0x5B :: s) = true ↔ ∃ rest, ipLiteral s = some rest ∧ portIsValid rest = true := by
  cases hliteral : ipLiteral s with
  | none => simp [hostValueIsValid, hliteral]
  | some rest => simp [hostValueIsValid, hliteral]

theorem hostValueIsValid_regName {value : Bytes} (h : value.head? ≠ some 0x5B) :
    hostValueIsValid value = true ↔
      ∃ rest, regName value = some rest ∧ rest.length ≠ value.length ∧ portIsValid rest = true := by
  unfold hostValueIsValid
  split
  · exact absurd rfl h
  · cases regName value with
    | none => simp
    | some rest => simp

/-- **`host_value_is_valid` accepts `uri-host [ ":" port ]`**, and so no byte that neither holds. -/
theorem hostValueIsValid_iff (value : Bytes) :
    (hostValueIsValid value = true ↔ HostPort value) ∧
      (hostValueIsValid value = true → ∀ c ∈ value,
        0x20 < c ∧ c < 0x7F ∧ c ≠ 0x40 ∧ c ≠ SLASH ∧ c ≠ 0x3F ∧ c ≠ 0x23) := by
  have hiff : hostValueIsValid value = true ↔ HostPort value := by
    rw [hostPort_iff]
    by_cases hbracket : value.head? = some 0x5B
    · obtain ⟨s, rfl⟩ := List.head?_eq_some_iff.mp hbracket
      rw [hostValueIsValid_bracket]
      constructor
      · rintro ⟨rest, hrest, hport⟩
        rcases ipLiteral_eq_some.mp hrest with ⟨v, t, hv, ht, rfl⟩ | ⟨t, ht, rfl⟩
        · exact ⟨_, rest, by simp, Host.future hv ht, hport⟩
        · exact ⟨_, rest, by simp, Host.v6 ht, hport⟩
      · rintro ⟨host, rest, heq, hhost, hport⟩
        refine ⟨rest, ipLiteral_eq_some.mpr ?_, hport⟩
        cases hhost with
        | regName hs hne =>
          -- no reg-name starts with a bracket
          obtain ⟨c, t, rfl⟩ := List.exists_cons_of_ne_nil hne
          have hc := hs.bytes c List.mem_cons_self
          obtain rfl := (List.cons.inj heq).1
          cases hs with
          | char hc _ => exact absurd hc (by decide)
        | @future v t hv ht => exact Or.inl ⟨v, t, hv, ht, by simpa using heq⟩
        | @v6 t ht => exact Or.inr ⟨t, ht, by simpa using heq⟩
    · rw [hostValueIsValid_regName hbracket]
      constructor
      · rintro ⟨rest, hrest, hlength, hport⟩
        obtain ⟨t, ht, rfl, -⟩ := regName_eq_some.mp hrest
        refine ⟨t, rest, rfl, Host.regName ht ?_, hport⟩
        rintro rfl
        exact hlength rfl
      · rintro ⟨host, rest, rfl, hhost, hport⟩
        cases hhost with
        | regName hs hne =>
          refine ⟨rest, regName_eq_some.mpr ⟨host, hs, rfl, ?_⟩, ?_, hport⟩
          · intro c hc
            rcases portIsValid_iff.mp hport with rfl | ⟨port, rfl, -⟩
            · cases hc
            · exact (Option.some.inj hc).symm
          · have hpos := List.length_pos_iff.mpr hne
            rw [List.length_append]
            omega
        | future _ _ => exact absurd rfl hbracket
        | v6 _ => exact absurd rfl hbracket
  refine ⟨hiff, ?_⟩
  intro hvalid c hc
  have hbyte := (hiff.mp hvalid).bytes c hc
  revert hbyte
  simp only [HostByte, Unreserved, SubDelim, Alpha, Digit, SLASH, List.mem_cons, List.not_mem_nil, or_false,
    ne_eq, ← UInt8.toNat_inj, UInt8.lt_iff_toNat_lt, UInt8.le_iff_toNat_le, UInt8.reduceToNat]
  omega

/-- A comma is a sub-delim, and a host may hold one. -/
theorem hostValueIsValid_comma :
    ¬∀ value, hostValueIsValid value = true → COMMA ∉ value := by
  intro h
  exact absurd (h (ascii "a,b") (by decide)) (by decide)

end MojoHttp
