import MojoHttp.Lib.Conninfo
import MojoHttp.Postgres.Redact

/-!
# What redaction gives away (`m0-postgres`, `url.mojo`)

* **`DifferInSecrets`** — two connection strings that agree but in their secret values.
* **`DifferInSecrets.masked_eq`** — where both are parsed, the masked text is the same: the mask begins and ends at
  bytes that no secret moves.
* **`notInfix_withoutSecrets`** — a secret as it is written is in no message, whatever the others are.
* **`redaction_hides_iff`** — and as libpq reads it, exactly where it has one as it is written in it.
-/

namespace MojoHttp.Postgres

/-! ## Two strings that differ in their secrets -/

/-- Characters and escapes, no character one that `stop` ends at. -/
inductive Escaped (stop : UInt8 → Bool) : Bytes → Prop
  | nil : Escaped stop []
  | plain {b : UInt8} {rest : Bytes} (hb : b ≠ BACKSLASH) (hstop : stop b = false) (h : Escaped stop rest) :
      Escaped stop (b :: rest)
  | escape {c : UInt8} {rest : Bytes} (h : Escaped stop rest) : Escaped stop (BACKSLASH :: c :: rest)

/-- How a bare value may begin. -/
def IsBareStart (text : Bytes) : Prop := ∀ b, text.head? = some b → b ≠ QUOTE ∧ isSpace b = false

/-- A value as it is written, in front of what is behind it. -/
inductive IsValue : (written behind : Bytes) → Prop
  | quoted {inner behind : Bytes} (h : Escaped (· == QUOTE) inner) : IsValue (QUOTE :: inner ++ [QUOTE]) behind
  | bare {text behind : Bytes} (hstart : IsBareStart text) (h : Escaped isSpace text)
      (hbehind : behind = [] ∨ (text ≠ [] ∧ ∃ b, behind.head? = some b ∧ isSpace b = true)) : IsValue text behind
  | dangling {text : Bytes} (hstart : IsBareStart text) (h : Escaped isSpace text) : IsValue (text ++ [BACKSLASH]) []

def IsKey (key : Bytes) : Prop := key ≠ [] ∧ ∀ b ∈ key, b ≠ EQUALS ∧ isSpace b = false

/-- Two lists of pairs that agree but in the values of secret keywords, however these are quoted. -/
inductive AlikePairs : Bytes → Bytes → Prop
  | blanks {blanks : Bytes} (h : ∀ b ∈ blanks, isSpace b = true) : AlikePairs blanks blanks
  | pair {front key mid gap value value' behind behind' : Bytes} (hfront : ∀ b ∈ front, isSpace b = true)
      (hkey : IsKey key) (hmid : ∀ b ∈ mid, isSpace b = true) (hgap : ∀ b ∈ gap, isSpace b = true)
      (hvalue : IsValue value behind) (hvalue' : IsValue value' behind')
      (hsame : isSecretKeyword key = false → value = value') (h : AlikePairs behind behind') :
      AlikePairs (front ++ (key ++ (mid ++ EQUALS :: (gap ++ (value ++ behind)))))
        (front ++ (key ++ (mid ++ EQUALS :: (gap ++ (value' ++ behind')))))

/-- Two parameters that agree but in the value of a secret keyword. -/
inductive AlikeParam : Bytes → Bytes → Prop
  | same {seg : Bytes} (h : AMP ∉ seg) : AlikeParam seg seg
  | secret {key value value' : Bytes} (hkey : isSecretKeyword key = true) (h : AMP ∉ value) (h' : AMP ∉ value') :
      AlikeParam (key ++ EQUALS :: value) (key ++ EQUALS :: value')

inductive AlikeQuery : Bytes → Bytes → Prop
  | last {seg seg' : Bytes} (h : AlikeParam seg seg') : AlikeQuery seg seg'
  | more {seg seg' rest rest' : Bytes} (h : AlikeParam seg seg') (hrest : AlikeQuery rest rest') :
      AlikeQuery (seg ++ AMP :: rest) (seg' ++ AMP :: rest')

/-- The hosts, the path and the query of two URIs that agree but in the query's secrets. -/
inductive AlikeRest : Bytes → Bytes → Prop
  | same (rest : Bytes) : AlikeRest rest rest
  | query {front query query' : Bytes} (hfront : QUESTION ∉ front) (h : AlikeQuery query query') :
      AlikeRest (front ++ QUESTION :: query) (front ++ QUESTION :: query')

/-- Two connection strings that differ only in the bytes of their secret values. -/
inductive DifferInSecrets : Bytes → Bytes → Prop
  | pairs {a b : Bytes} (ha : isUri a = false) (hb : isUri b = false) (h : AlikePairs a b) : DifferInSecrets a b
  | uri {scheme rest rest' : Bytes} (hscheme : scheme = ascii "postgres://" ∨ scheme = ascii "postgresql://")
      (h : AlikeRest rest rest') : DifferInSecrets (scheme ++ rest) (scheme ++ rest')
  | userinfo {scheme user password password' rest rest' : Bytes}
      (hscheme : scheme = ascii "postgres://" ∨ scheme = ascii "postgresql://") (huser : 0x3A ∉ user)
      (h : AlikeRest rest rest') :
      DifferInSecrets (scheme ++ (user ++ 0x3A :: (password ++ AT :: rest)))
        (scheme ++ (user ++ 0x3A :: (password' ++ AT :: rest')))

/-! ## Pairs between blanks -/

theorem splitQuoted_eq {inner : Bytes} (h : Escaped (· == QUOTE) inner) (behind : Bytes) :
    splitQuoted false (inner ++ QUOTE :: behind) = some (inner, behind) := by
  induction h with
  | nil => rfl
  | plain hb hstop h ih =>
    rw [List.cons_append, splitQuoted, if_neg hb, if_neg (by simpa using hstop), ih]
    rfl
  | escape h ih =>
    rw [List.cons_append, List.cons_append, splitQuoted, if_pos rfl, splitQuoted, ih]
    rfl

theorem splitBare_eq {text behind : Bytes} (h : Escaped isSpace text)
    (hbehind : behind = [] ∨ ∃ b, behind.head? = some b ∧ isSpace b = true) :
    splitBare false (text ++ behind) = (text, behind) := by
  induction h with
  | nil =>
    rcases hbehind with rfl | ⟨b, hb, hspace⟩
    · rfl
    · obtain ⟨rest, rfl⟩ := List.head?_eq_some_iff.mp hb
      rw [List.nil_append, splitBare, if_pos hspace]
  | plain hb hstop h ih =>
    rw [List.cons_append, splitBare, if_neg (Bool.eq_false_iff.mp hstop), beq_eq_false_iff_ne.mpr hb, ih]
  | escape h ih =>
    rw [List.cons_append, List.cons_append, splitBare, if_neg (by decide), beq_self_eq_true, splitBare, ih]

theorem splitBare_dangling {text : Bytes} (h : Escaped isSpace text) :
    splitBare false (text ++ [BACKSLASH]) = (text ++ [BACKSLASH], []) := by
  induction h with
  | nil => rfl
  | plain hb hstop h ih =>
    rw [List.cons_append, splitBare, if_neg (Bool.eq_false_iff.mp hstop), beq_eq_false_iff_ne.mpr hb, ih]
  | escape h ih =>
    rw [List.cons_append, List.cons_append, splitBare, if_neg (by decide), beq_self_eq_true, splitBare, ih]

theorem splitValue_eq {value behind : Bytes} (h : IsValue value behind) :
    ∃ secret, splitValue (value ++ behind) = some (value, secret, behind) := by
  cases h with
  | @quoted inner _ h =>
    refine ⟨inner, ?_⟩
    rw [List.cons_append, List.cons_append, List.append_assoc, splitValue, if_pos rfl]
    rw [show [QUOTE] ++ behind = QUOTE :: behind from rfl, splitQuoted_eq h]
    rfl
  | bare hstart h hbehind =>
    cases value with
    | nil =>
      rcases hbehind with rfl | ⟨hne, -⟩
      · exact ⟨[], rfl⟩
      · exact absurd rfl hne
    | cons b text =>
      refine ⟨b :: text, ?_⟩
      rw [List.cons_append, splitValue, if_neg (hstart b rfl).1, ← List.cons_append,
        splitBare_eq h (hbehind.imp_right And.right)]
  | @dangling text hstart h =>
    rw [List.append_nil]
    cases text with
    | nil => exact ⟨[BACKSLASH], rfl⟩
    | cons b text =>
      refine ⟨b :: text ++ [BACKSLASH], ?_⟩
      rw [List.cons_append, splitValue, if_neg (hstart b rfl).1, ← List.cons_append, splitBare_dangling h]

/-- A run of bytes that ends where `p` stops holding. -/
theorem span_append {p : UInt8 → Bool} {a b : Bytes} (ha : ∀ x ∈ a, p x = true)
    (hb : ∀ x, b.head? = some x → p x = false) : (a ++ b).takeWhile p = a ∧ (a ++ b).dropWhile p = b := by
  rw [List.takeWhile_append_of_pos ha, List.dropWhile_append_of_pos ha]
  cases b with
  | nil => exact ⟨List.append_nil a, rfl⟩
  | cons x b =>
    have hx := Bool.eq_false_iff.mp (hb x rfl)
    rw [List.takeWhile_cons_of_neg hx, List.dropWhile_cons_of_neg hx, List.append_nil]
    exact ⟨rfl, rfl⟩

/-- No blank stands in front of a value. -/
theorem IsValue.head_not_space {value behind : Bytes} (h : IsValue value behind) :
    ∀ b, (value ++ behind).head? = some b → isSpace b = false := by
  intro b hb
  cases h with
  | quoted h =>
    rw [List.cons_append, List.cons_append, List.head?_cons] at hb
    rw [← Option.some.inj hb]
    decide
  | bare hstart h hbehind =>
    cases value with
    | nil =>
      rcases hbehind with rfl | ⟨hne, -⟩
      · exact absurd hb (Option.some_ne_none _).symm
      · exact absurd rfl hne
    | cons c text => exact (hstart b hb).2
  | @dangling text hstart h =>
    cases text with
    | nil =>
      rw [List.nil_append, List.append_nil, List.head?_cons] at hb
      rw [← Option.some.inj hb]
      decide
    | cons c text => exact (hstart b hb).2

/-- One round over a pair. -/
theorem maskPairs_pair {front key mid gap value behind : Bytes} (hfront : ∀ b ∈ front, isSpace b = true)
    (hkey : IsKey key) (hmid : ∀ b ∈ mid, isSpace b = true) (hgap : ∀ b ∈ gap, isSpace b = true)
    (hvalue : IsValue value behind) (rounds : Nat) :
    (maskPairs (rounds + 1) (front ++ (key ++ (mid ++ EQUALS :: (gap ++ (value ++ behind)))))).map Prod.fst =
      if isLibpqKeyword key then
        ((maskPairs rounds behind).map Prod.fst).map fun out =>
          front ++ key ++ mid ++ EQUALS :: gap ++ (if isSecretKeyword key then REDACTED else value) ++ out
      else none := by
  obtain ⟨hne, hkey⟩ := hkey
  obtain ⟨secret, hsplit⟩ := splitValue_eq hvalue
  obtain ⟨htakeGap, hdropGap⟩ := span_append hgap hvalue.head_not_space
  -- what ends the blanks, the keyword, and the blanks behind it
  have hafterMid : ∀ x, (EQUALS :: (gap ++ (value ++ behind))).head? = some x → isSpace x = false := by
    intro x hx
    rw [← Option.some.inj hx]
    decide
  have hafterKey : ∀ x, (mid ++ EQUALS :: (gap ++ (value ++ behind))).head? = some x →
      (x != EQUALS && !isSpace x) = false := by
    intro x hx
    cases mid with
    | nil =>
      rw [← Option.some.inj hx]
      rfl
    | cons c mid => rw [← Option.some.inj hx, hmid c List.mem_cons_self, Bool.not_true, Bool.and_false]
  have hafterFront : ∀ x, (key ++ (mid ++ EQUALS :: (gap ++ (value ++ behind)))).head? = some x →
      isSpace x = false := by
    intro x hx
    obtain ⟨c, rest, hcons⟩ := List.exists_cons_of_ne_nil hne
    rw [hcons, List.cons_append, List.head?_cons] at hx
    exact (hkey x (by rw [hcons, ← Option.some.inj hx]; exact List.mem_cons_self)).2
  have hword : ∀ x ∈ key, (x != EQUALS && !isSpace x) = true := by
    intro x hx
    simp [hkey x hx]
  obtain ⟨htakeMid, hdropMid⟩ := span_append hmid hafterMid
  obtain ⟨htakeKey, hdropKey⟩ := span_append hword hafterKey
  obtain ⟨htakeFront, hdropFront⟩ := span_append hfront hafterFront
  rw [maskPairs]
  simp only [htakeFront, hdropFront, htakeKey, hdropKey, htakeMid, hdropMid, htakeGap, hdropGap, hsplit]
  rw [if_neg (by simp [hne]), if_neg hne]
  cases hknown : isLibpqKeyword key with
  | false => rfl
  | true =>
    cases hrest : maskPairs rounds behind with
    | none => simp [hrest]
    | some masked => cases hsecret : isSecretKeyword key <;> simp [hrest]

theorem maskPairs_blanks {blanks : Bytes} (h : ∀ b ∈ blanks, isSpace b = true) (rounds : Nat) :
    maskPairs (rounds + 1) blanks = some (blanks, []) := by
  rw [maskPairs, if_pos (List.dropWhile_eq_nil_iff.mpr h), List.takeWhile_eq_self_iff.mpr h]

theorem IsKey.length_pos {key : Bytes} (h : IsKey key) : 0 < key.length := List.length_pos_iff.mpr h.1

/-- Two lists of pairs that differ in their secrets are masked to one text. -/
theorem AlikePairs.maskPairs_eq {a b : Bytes} (h : AlikePairs a b) {n m : Nat} (hn : a.length < n)
    (hm : b.length < m) : (maskPairs n a).map Prod.fst = (maskPairs m b).map Prod.fst := by
  induction h generalizing n m with
  | blanks h =>
    obtain ⟨n, rfl⟩ := Nat.exists_eq_succ_of_ne_zero (Nat.ne_of_gt (Nat.lt_of_le_of_lt (Nat.zero_le _) hn))
    obtain ⟨m, rfl⟩ := Nat.exists_eq_succ_of_ne_zero (Nat.ne_of_gt (Nat.lt_of_le_of_lt (Nat.zero_le _) hm))
    rw [maskPairs_blanks h, maskPairs_blanks h]
  | @pair front key mid gap value value' behind behind' hfront hkey hmid hgap hvalue hvalue' hsame h ih =>
    obtain ⟨n, rfl⟩ := Nat.exists_eq_succ_of_ne_zero (Nat.ne_of_gt (Nat.lt_of_le_of_lt (Nat.zero_le _) hn))
    obtain ⟨m, rfl⟩ := Nat.exists_eq_succ_of_ne_zero (Nat.ne_of_gt (Nat.lt_of_le_of_lt (Nat.zero_le _) hm))
    have hpos := hkey.length_pos
    simp only [List.length_append, List.length_cons] at hn hm
    rw [maskPairs_pair hfront hkey hmid hgap hvalue, maskPairs_pair hfront hkey hmid hgap hvalue',
      @ih n m (by omega) (by omega)]
    cases hsecret : isSecretKeyword key with
    | true => rfl
    | false => rw [hsame hsecret]

/-! ## URIs -/

/-- The authority and what follows it. -/
def authorityOf (rest : Bytes) : Bytes := rest.takeWhile fun b => b != 0x2F && b != QUESTION

def tailOf (rest : Bytes) : Bytes := rest.dropWhile fun b => b != 0x2F && b != QUESTION

theorem maskUri_fst {scheme : Bytes} (hscheme : scheme = ascii "postgres://" ∨ scheme = ascii "postgresql://")
    (rest : Bytes) :
    (maskUri (scheme ++ rest)).map Prod.fst =
      if (tailOf rest).contains AT then none
      else
        ((maskAuthority (authorityOf rest)).map Prod.fst).bind fun front =>
          ((maskTail (tailOf rest)).map Prod.fst).map fun behind => scheme ++ front ++ behind := by
  have hsplit : splitScheme (scheme ++ rest) = some (scheme, rest) := by
    rcases hscheme with rfl | rfl <;> rfl
  rw [maskUri, hsplit]
  show Option.map Prod.fst (if (tailOf rest).contains AT then none else _) = _
  split
  · rfl
  · show Option.map Prod.fst ((maskAuthority (authorityOf rest)).bind fun masked =>
      (maskTail (tailOf rest)).bind fun more => some (scheme ++ masked.1 ++ more.1, masked.2 ++ more.2)) = _
    cases maskAuthority (authorityOf rest) with
    | none => rfl
    | some masked => cases maskTail (tailOf rest) <;> rfl

theorem AlikeParam.amp_notMem {seg seg' : Bytes} (h : AlikeParam seg seg') : AMP ∉ seg ∧ AMP ∉ seg' := by
  cases h with
  | same h => exact ⟨h, h⟩
  | secret hkey h h' =>
    have hplain : ∀ key, isSecretKeyword key = true → AMP ∉ key := by
      intro key hkey
      simp only [isSecretKeyword, Bool.or_eq_true, beq_iff_eq] at hkey
      rcases hkey with (rfl | rfl) | rfl <;> decide
    have hnot := hplain _ hkey
    have hne : AMP ≠ EQUALS := by decide
    exact ⟨by simp [hnot, h, hne], by simp [hnot, h', hne]⟩

theorem AlikeParam.maskParam_eq {seg seg' : Bytes} (h : AlikeParam seg seg') :
    (maskParam seg).map Prod.fst = (maskParam seg').map Prod.fst := by
  cases h with
  | same h => rfl
  | @secret key value value' hkey h h' =>
    have hplain : ∀ key, isSecretKeyword key = true → EQUALS ∉ key ∧ key ≠ [] ∧ isLibpqKeyword key = true := by
      intro key hkey
      simp only [isSecretKeyword, Bool.or_eq_true, beq_iff_eq] at hkey
      rcases hkey with (rfl | rfl) | rfl <;> decide
    obtain ⟨hequals, hne, hknown⟩ := hplain key hkey
    have hmask : ∀ v, maskParam (key ++ EQUALS :: v) = some (key ++ EQUALS :: REDACTED, [v]) := by
      intro v
      obtain ⟨htake, hdrop⟩ := span_append (p := (· != EQUALS)) (a := key) (b := EQUALS :: v)
        (fun x hx => bne_iff_ne.mpr fun heq => hequals (heq ▸ hx)) fun x hx => by
          rw [← Option.some.inj hx]
          rfl
      simp only [maskParam, htake, hdrop]
      rw [if_neg hne, hknown, if_neg (by decide), if_pos hkey]
    rw [hmask, hmask]
    rfl

theorem splitOn_amp {seg : Bytes} (h : AMP ∉ seg) (rest : Bytes) :
    (seg ++ AMP :: rest).splitOn AMP = seg :: rest.splitOn AMP := by
  rw [List.splitOn_eq_splitOnP, List.splitOnP_append_cons (p := (· == AMP)) _ _ (beq_self_eq_true _),
    ← List.splitOn_eq_splitOnP, ← List.splitOn_eq_splitOnP, List.splitOn_eq_singleton h]
  rfl

theorem maskParams_cons {seg : Bytes} {segs : List Bytes} (h : segs ≠ []) :
    (maskParams (seg :: segs)).map Prod.fst =
      ((maskParam seg).map Prod.fst).bind fun out =>
        ((maskParams segs).map Prod.fst).map fun rest => out ++ AMP :: rest := by
  obtain ⟨s, segs, rfl⟩ := List.exists_cons_of_ne_nil h
  rw [maskParams]
  · cases maskParam seg with
    | none => rfl
    | some masked => cases maskParams (s :: segs) <;> rfl
  · exact List.cons_ne_nil _ _

theorem AlikeQuery.maskParams_eq {query query' : Bytes} (h : AlikeQuery query query') :
    (maskParams (query.splitOn AMP)).map Prod.fst = (maskParams (query'.splitOn AMP)).map Prod.fst := by
  induction h with
  | last h =>
    obtain ⟨hamp, hamp'⟩ := h.amp_notMem
    rw [List.splitOn_eq_singleton hamp, List.splitOn_eq_singleton hamp']
    exact h.maskParam_eq
  | more h hrest ih =>
    obtain ⟨hamp, hamp'⟩ := h.amp_notMem
    rw [splitOn_amp hamp, splitOn_amp hamp', maskParams_cons (List.splitOn_ne_nil _ _),
      maskParams_cons (List.splitOn_ne_nil _ _), h.maskParam_eq, ih]

theorem AlikeQuery.maskQuery_eq {query query' : Bytes} (h : AlikeQuery query query') :
    (maskQuery query).map Prod.fst = (maskQuery query').map Prod.fst := by
  have hnil : query = [] ↔ query' = [] := by
    cases h with
    | last h =>
      cases h with
      | same h => exact Iff.rfl
      | secret hkey h h' => simp
    | more h hrest => simp
  unfold maskQuery
  by_cases hquery : query = []
  · rw [if_pos hquery, if_pos (hnil.mp hquery)]
  · rw [if_neg hquery, if_neg fun h => hquery (hnil.mpr h), h.maskParams_eq]

theorem AlikeRest.spans {rest rest' : Bytes} (h : AlikeRest rest rest') :
    authorityOf rest = authorityOf rest' ∧
      (maskTail (tailOf rest)).map Prod.fst = (maskTail (tailOf rest')).map Prod.fst := by
  cases h with
  | same => exact ⟨rfl, rfl⟩
  | @query front query query' hfront h =>
    have hquestion : ∀ q x, (QUESTION :: q).head? = some x → (x != QUESTION) = false := by
      intro q x hx
      rw [← Option.some.inj hx]
      rfl
    -- the query begins behind the path, wherever that does
    have hspan : ∀ q, authorityOf (front ++ QUESTION :: q) = front.takeWhile (· != 0x2F) ∧
        tailOf (front ++ QUESTION :: q) = front.dropWhile (· != 0x2F) ++ QUESTION :: q := by
      intro q
      have hword : ∀ x ∈ front.takeWhile (· != 0x2F), (x != 0x2F && x != QUESTION) = true := by
        intro x hx
        have hslash := List.mem_takeWhile_imp hx
        have hquestion : x ≠ QUESTION := fun heq => hfront (heq ▸ (List.takeWhile_prefix _).subset hx)
        simpa [hquestion] using hslash
      have hstop : ∀ x, (front.dropWhile (· != 0x2F) ++ QUESTION :: q).head? = some x →
          (x != 0x2F && x != QUESTION) = false := by
        intro x hx
        cases hpath : front.dropWhile (· != 0x2F) with
        | nil =>
          rw [hpath] at hx
          rw [← Option.some.inj hx]
          rfl
        | cons c path =>
          have hc := List.head?_dropWhile_not (fun b => b != 0x2F) front
          rw [hpath] at hx hc
          rw [← Option.some.inj hx]
          have hslash : (c != 0x2F) = false := by simpa using hc
          rw [hslash, Bool.false_and]
      have hsplit : front ++ QUESTION :: q =
          front.takeWhile (· != 0x2F) ++ (front.dropWhile (· != 0x2F) ++ QUESTION :: q) := by
        rw [← List.append_assoc, List.takeWhile_append_dropWhile]
      rw [authorityOf, tailOf, hsplit]
      exact span_append hword hstop
    have htail : ∀ q, (maskTail (front.dropWhile (· != 0x2F) ++ QUESTION :: q)).map Prod.fst =
        ((maskQuery q).map Prod.fst).map fun out => front.dropWhile (· != 0x2F) ++ QUESTION :: out := by
      intro q
      have hpath : ∀ x ∈ front.dropWhile (· != 0x2F), (x != QUESTION) = true := fun x hx =>
        bne_iff_ne.mpr fun heq => hfront (heq ▸ (List.dropWhile_suffix _).subset hx)
      obtain ⟨htake, hdrop⟩ := span_append hpath (hquestion q)
      rw [maskTail, hdrop]
      simp only [htake]
      cases maskQuery q <;> rfl
    rw [(hspan query).1, (hspan query').1, (hspan query).2, (hspan query').2, htail, htail, h.maskQuery_eq]
    exact ⟨rfl, rfl⟩

theorem splitLastAt_append (front behind : Bytes) : splitLastAt (front ++ AT :: behind) =
    some (match splitLastAt behind with
      | some (userinfo, hosts) => (front ++ AT :: userinfo, hosts)
      | none => (front, behind)) := by
  induction front with
  | nil =>
    rw [List.nil_append, splitLastAt]
    cases splitLastAt behind with
    | none => rfl
    | some split => rfl
  | cons b front ih =>
    rw [List.cons_append, splitLastAt, ih]
    cases splitLastAt behind <;> rfl

/-- The hosts of an authority: what is behind its last `@`. -/
def hostsOf (authority : Bytes) : Bytes := ((splitLastAt authority).map Prod.snd).getD authority

/-- A userinfo with a password in it, whatever the password is. -/
theorem maskAuthority_password {user : Bytes} (huser : 0x3A ∉ user) (password authority : Bytes) :
    (maskAuthority (user ++ 0x3A :: (password ++ AT :: authority))).map Prod.fst =
      if validHosts (hostsOf authority) then some (user ++ 0x3A :: REDACTED ++ AT :: hostsOf authority) else none := by
  have hplain : ∀ x ∈ user, (x != 0x3A) = true := fun x hx => bne_iff_ne.mpr fun heq => huser (heq ▸ hx)
  have hspan : ∀ behind, (user ++ 0x3A :: behind).takeWhile (· != 0x3A) = user ∧
      (user ++ 0x3A :: behind).dropWhile (· != 0x3A) = 0x3A :: behind := by
    intro behind
    refine span_append hplain fun x hx => ?_
    rw [← Option.some.inj hx]
    rfl
  rw [show user ++ 0x3A :: (password ++ AT :: authority) = (user ++ 0x3A :: password) ++ AT :: authority by simp,
    maskAuthority, splitLastAt_append, hostsOf]
  cases splitLastAt authority with
  | none =>
    simp only [Option.map_none, Option.getD_none, (hspan password).1, (hspan password).2]
    cases validHosts authority <;> rfl
  | some split =>
    have hassoc : user ++ 0x3A :: password ++ AT :: split.1 = user ++ 0x3A :: (password ++ AT :: split.1) := by simp
    simp only [Option.map_some, Option.getD_some, hassoc, (hspan (password ++ AT :: split.1)).1,
      (hspan (password ++ AT :: split.1)).2]
    cases validHosts split.2 <;> rfl

/-- A string that is parsed has its userinfo in the authority. -/
theorem spans_of_parsed {scheme : Bytes} (hscheme : scheme = ascii "postgres://" ∨ scheme = ascii "postgresql://")
    {front rest : Bytes} (h : (maskUri (scheme ++ (front ++ AT :: rest))).isSome) :
    authorityOf (front ++ AT :: rest) = front ++ AT :: authorityOf rest ∧ tailOf (front ++ AT :: rest) = tailOf rest := by
  have hfst := maskUri_fst hscheme (front ++ AT :: rest)
  have hinside : ∀ x ∈ front, (x != 0x2F && x != QUESTION) = true := by
    by_contra hnot
    have hne : front.dropWhile (fun b => b != 0x2F && b != QUESTION) ≠ [] := by
      rw [ne_eq, List.dropWhile_eq_nil_iff]
      exact hnot
    have hat : (tailOf (front ++ AT :: rest)).contains AT = true := by
      rw [tailOf, List.dropWhile_append, if_neg (by simpa using hne)]
      simp
    rw [if_pos hat, Option.map_eq_none_iff] at hfst
    rw [hfst] at h
    exact absurd h (by decide)
  have hsplit : front ++ AT :: rest = (front ++ [AT]) ++ rest := by simp
  have hall : ∀ x ∈ front ++ [AT], (x != 0x2F && x != QUESTION) = true := by
    intro x hx
    rcases List.mem_append.mp hx with hx | hx
    · exact hinside x hx
    · rw [List.mem_singleton.mp hx]
      decide
  rw [authorityOf, tailOf, hsplit, List.takeWhile_append_of_pos hall, List.dropWhile_append_of_pos hall]
  exact ⟨by simp [authorityOf], rfl⟩

theorem parseAndMask_uri {scheme : Bytes} (hscheme : scheme = ascii "postgres://" ∨ scheme = ascii "postgresql://")
    (rest : Bytes) : parseAndMask (scheme ++ rest) = maskUri (scheme ++ rest) := by
  have huri : isUri (scheme ++ rest) = true := by
    rcases hscheme with rfl | rfl <;> rfl
  rw [parseAndMask, if_pos huri]

/-- The masked text of two strings that differ in their secrets. -/
theorem DifferInSecrets.masked_eq {a b : Bytes} (h : DifferInSecrets a b) (ha : (parseAndMask a).isSome)
    (hb : (parseAndMask b).isSome) : (parseAndMask a).map Prod.fst = (parseAndMask b).map Prod.fst := by
  have hjoin : ∀ {scheme rest rest' : Bytes} (hscheme : scheme = ascii "postgres://" ∨ scheme = ascii "postgresql://")
      (hfront : (maskAuthority (authorityOf rest)).map Prod.fst = (maskAuthority (authorityOf rest')).map Prod.fst)
      (htail : (maskTail (tailOf rest)).map Prod.fst = (maskTail (tailOf rest')).map Prod.fst)
      (ha : (maskUri (scheme ++ rest)).isSome) (hb : (maskUri (scheme ++ rest')).isSome),
      (maskUri (scheme ++ rest)).map Prod.fst = (maskUri (scheme ++ rest')).map Prod.fst := by
    intro scheme rest rest' hscheme hfront htail ha hb
    have hat : ∀ rest, (maskUri (scheme ++ rest)).isSome → ¬(tailOf rest).contains AT = true := by
      intro rest hsome hcontains
      have hfst := maskUri_fst hscheme rest
      rw [if_pos hcontains, Option.map_eq_none_iff] at hfst
      rw [hfst] at hsome
      exact absurd hsome (by decide)
    rw [maskUri_fst hscheme, maskUri_fst hscheme, if_neg (hat rest ha), if_neg (hat rest' hb), hfront, htail]
  cases h with
  | pairs hka hkb h =>
    rw [parseAndMask, parseAndMask, hka, hkb, if_neg (by decide), if_neg (by decide), maskKeyvalue, maskKeyvalue]
    exact h.maskPairs_eq (Nat.lt_succ_self _) (Nat.lt_succ_self _)
  | uri hscheme h =>
    rw [parseAndMask_uri hscheme] at ha hb
    rw [parseAndMask_uri hscheme, parseAndMask_uri hscheme]
    obtain ⟨hauthority, htail⟩ := h.spans
    exact hjoin hscheme (by rw [hauthority]) htail ha hb
  | @userinfo scheme user password password' rest rest' hscheme huser h =>
    have hassoc : ∀ p r, user ++ 0x3A :: (p ++ AT :: r) = (user ++ 0x3A :: p) ++ AT :: r := by simp
    rw [parseAndMask_uri hscheme, hassoc] at ha hb
    rw [parseAndMask_uri hscheme, parseAndMask_uri hscheme, hassoc, hassoc]
    obtain ⟨hauthority, htail⟩ := h.spans
    obtain ⟨hspan, hspanTail⟩ := spans_of_parsed hscheme ha
    obtain ⟨hspan', hspanTail'⟩ := spans_of_parsed hscheme hb
    refine hjoin hscheme ?_ (by rw [hspanTail, hspanTail', htail]) ha hb
    rw [hspan, hspan', ← hassoc, ← hassoc, maskAuthority_password huser, maskAuthority_password huser, hauthority]

/-! ## The message -/

theorem replaceFrom_skip (needle replacement : Bytes) (skip : Nat) (text : Bytes) :
    replaceFrom needle replacement skip text = replaceFrom needle replacement 0 (text.drop skip) := by
  induction skip generalizing text with
  | zero => rfl
  | succ skip ih =>
    cases text with
    | nil => rfl
    | cons b rest => exact ih rest

section Replaced

variable {needle : Bytes}

/-- What the output begins with and no replacement has a part in begins the text, and the needle does not. -/
theorem prefix_of_prefix_replaceFrom {t text : Bytes} (ht : 0x2A ∉ t)
    (h : t <+: replaceFrom needle REDACTED 0 text) : t <+: text := by
  induction text generalizing t with
  | nil => exact h
  | cons b rest ih =>
    rw [replaceFrom] at h
    cases t with
    | nil => exact List.nil_prefix
    | cons c t =>
      rw [List.mem_cons, not_or] at ht
      split at h
      · exact absurd (List.cons_prefix_cons.mp h).1.symm ht.1
      · obtain ⟨rfl, hrest⟩ := List.cons_prefix_cons.mp h
        exact List.cons_prefix_cons.mpr ⟨rfl, ih ht.2 hrest⟩

theorem not_prefix_replaceFrom (hne : needle ≠ []) (hstar : 0x2A ∉ needle) (text : Bytes) :
    ¬needle <+: replaceFrom needle REDACTED 0 text := by
  intro h
  have htext := prefix_of_prefix_replaceFrom hstar h
  cases text with
  | nil => exact hne (List.prefix_nil.mp htext)
  | cons b rest =>
    rw [replaceFrom, if_pos (List.isPrefixOf_iff_prefix.mpr htext)] at h
    obtain ⟨c, more, rfl⟩ := List.exists_cons_of_ne_nil hne
    have hhead : c = 0x2A := (List.cons_prefix_cons.mp h).1
    exact hstar (hhead ▸ List.mem_cons_self)

/-- A part of the output begins within a replacement, or where the search went on. -/
theorem suffix_replaceFrom {text u : Bytes} (h : u <:+ replaceFrom needle REDACTED 0 text) :
    u.head? = some 0x2A ∨ ∃ text', text' <:+ text ∧ u = replaceFrom needle REDACTED 0 text' := by
  induction hlen : text.length using Nat.strong_induction_on generalizing text u with
  | _ n ih =>
    cases text with
    | nil =>
      have hnil : u = [] := List.suffix_nil.mp h
      exact Or.inr ⟨[], List.suffix_refl _, by rw [hnil]; rfl⟩
    | cons b rest =>
      have hwhole : replaceFrom needle REDACTED 0 (b :: rest) = u → ∃ text', text' <:+ b :: rest ∧
          u = replaceFrom needle REDACTED 0 text' := fun heq => ⟨b :: rest, List.suffix_refl _, heq.symm⟩
      rw [replaceFrom] at h hwhole
      split at h
      · -- a match: the replacement, then the search behind the match
        next hmatch =>
        rw [replaceFrom_skip] at h
        rcases List.suffix_cons_iff.mp h with heq | h
        · exact Or.inl (by rw [heq]; rfl)
        · rcases List.suffix_cons_iff.mp h with heq | h
          · exact Or.inl (by rw [heq]; rfl)
          · rcases List.suffix_cons_iff.mp h with heq | h
            · exact Or.inl (by rw [heq]; rfl)
            · have hlt : (rest.drop (needle.length - 1)).length < n := by
                rw [← hlen, List.length_drop, List.length_cons]
                omega
              rcases ih _ hlt h rfl with hstar | ⟨text', hsuffix, heq⟩
              · exact Or.inl hstar
              · exact Or.inr ⟨text', hsuffix.trans ((List.drop_suffix _ _).trans (List.suffix_cons b rest)), heq⟩
      · next hmatch =>
        rcases List.suffix_cons_iff.mp h with heq | h
        · rw [if_neg hmatch] at hwhole
          exact Or.inr (hwhole heq.symm)
        · have hlt : rest.length < n := by
            rw [← hlen, List.length_cons]
            exact Nat.lt_succ_self _
          rcases ih _ hlt h rfl with hstar | ⟨text', hsuffix, heq⟩
          · exact Or.inl hstar
          · exact Or.inr ⟨text', hsuffix.trans (List.suffix_cons b rest), heq⟩

/-- What is in the output and shares no byte with the replacement stands where a search began. -/
theorem exists_prefix_of_infix_replaceAll {t text : Bytes} (hne : t ≠ []) (hstar : 0x2A ∉ t)
    (h : t <:+: replaceAll text needle REDACTED) :
    ∃ text', text' <:+ text ∧ t <+: replaceFrom needle REDACTED 0 text' := by
  obtain ⟨u, hbegins, hsuffix⟩ := List.infix_iff_prefix_suffix.mp h
  obtain ⟨c, more, rfl⟩ := List.exists_cons_of_ne_nil hne
  rcases suffix_replaceFrom hsuffix with hhead | ⟨text', htext, rfl⟩
  · obtain ⟨rest, rfl⟩ := List.head?_eq_some_iff.mp hhead
    rw [(List.cons_prefix_cons.mp hbegins).1] at hstar
    exact absurd List.mem_cons_self hstar
  · exact ⟨text', htext, hbegins⟩

theorem infix_of_infix_replaceAll {t text : Bytes} (hne : t ≠ []) (hstar : 0x2A ∉ t)
    (h : t <:+: replaceAll text needle REDACTED) : t <:+: text := by
  obtain ⟨text', hsuffix, hbegins⟩ := exists_prefix_of_infix_replaceAll hne hstar h
  exact List.infix_iff_prefix_suffix.mpr ⟨text', prefix_of_prefix_replaceFrom hstar hbegins, hsuffix⟩

theorem notInfix_replaceAll (hne : needle ≠ []) (hstar : 0x2A ∉ needle) (text : Bytes) :
    ¬needle <:+: replaceAll text needle REDACTED := by
  intro h
  obtain ⟨text', -, hbegins⟩ := exists_prefix_of_infix_replaceAll hne hstar h
  exact not_prefix_replaceFrom hne hstar text' hbegins

theorem replaceAll_of_notInfix {text : Bytes} (replacement : Bytes) (h : ¬needle <:+: text) :
    replaceAll text needle replacement = text := by
  unfold replaceAll
  induction text with
  | nil => rfl
  | cons b rest ih =>
    have hbegins : ¬needle.isPrefixOf (b :: rest) = true := fun hp =>
      h (List.isPrefixOf_iff_prefix.mp hp).isInfix
    rw [replaceFrom, if_neg hbegins, ih fun hpart => h (hpart.trans (List.suffix_cons b rest).isInfix)]

end Replaced

/-- The passes of `redact_message`, a secret each. -/
def withoutSecrets (message : Bytes) (secrets : List Bytes) : Bytes :=
  secrets.foldl (fun out secret => if secret.length > 0 then replaceAll out secret REDACTED else out) message

theorem notInfix_pass {t : Bytes} (hne : t ≠ []) (hstar : 0x2A ∉ t) {message : Bytes} (h : ¬t <:+: message)
    (secrets : List Bytes) : ¬t <:+: withoutSecrets message secrets := by
  induction secrets generalizing message with
  | nil => exact h
  | cons secret secrets ih =>
    refine ih ?_
    beta_reduce
    split
    · exact fun hpart => h (infix_of_infix_replaceAll hne hstar hpart)
    · exact h

/-- Each pass takes its secret out, and none of the later ones brings it back. -/
theorem notInfix_withoutSecrets {secrets : List Bytes} (hstar : ∀ s ∈ secrets, 0x2A ∉ s) {s : Bytes}
    (hs : s ∈ secrets) (hne : s ≠ []) (message : Bytes) : ¬s <:+: withoutSecrets message secrets := by
  induction secrets generalizing message with
  | nil => exact absurd hs List.not_mem_nil
  | cons secret secrets ih =>
    rw [List.forall_mem_cons] at hstar
    rcases List.mem_cons.mp hs with rfl | hs
    · refine notInfix_pass hne hstar.1 ?_ secrets
      beta_reduce
      rw [if_pos (List.length_pos_iff.mpr hne)]
      exact notInfix_replaceAll hne hstar.1 message
    · exact ih hstar.2 hs _

/-- A message that no secret is in stands. -/
theorem withoutSecrets_eq_self {message : Bytes} {secrets : List Bytes}
    (h : ∀ s ∈ secrets, s ≠ [] → ¬s <:+: message) : withoutSecrets message secrets = message := by
  induction secrets with
  | nil => rfl
  | cons secret secrets ih =>
    rw [List.forall_mem_cons] at h
    have hpass : (if secret.length > 0 then replaceAll message secret REDACTED else message) = message := by
      split
      · next hpos => exact replaceAll_of_notInfix REDACTED (h.1 (List.length_pos_iff.mp hpos))
      · rfl
    rw [withoutSecrets, List.foldl_cons, hpass]
    exact ih h.2

/-! ## What is printed -/

/-- What the escapes of a pair's value stand for; `escaped` behind a backslash. -/
def unescape : (escaped : Bool) → Bytes → Bytes
  | _, [] => []
  | true, b :: rest => b :: unescape false rest
  | false, b :: rest => if b = BACKSLASH then unescape true rest else b :: unescape false rest

/-- What a secret of the string is read as by libpq, `none` where it refuses it. -/
def plainSecret (url secret : Bytes) : Option Bytes :=
  if isUri url then Conninfo.percentDecode secret else some (unescape false secret)

theorem redact_of_parsed {url out : Bytes} {secrets : List Bytes} (h : parseAndMask url = some (out, secrets)) :
    redact url = out := by
  unfold redact
  split
  · next hlen =>
    obtain rfl := List.eq_nil_of_length_eq_zero hlen
    have hnil : parseAndMask [] = some ([], []) := rfl
    rw [hnil] at h
    exact (Prod.mk.inj (Option.some.inj h)).1
  · rw [h]

theorem redact_of_unparsed {url : Bytes} (h : parseAndMask url = none) : redact url = fullyMasked url := by
  unfold redact
  split
  · next hlen =>
    obtain rfl := List.eq_nil_of_length_eq_zero hlen
    exact absurd h (by decide)
  · rw [h]

theorem redactMessage_of_parsed {url out : Bytes} {secrets : List Bytes}
    (h : parseAndMask url = some (out, secrets)) (message : Bytes) :
    redactMessage message url = withoutSecrets message secrets := by
  rw [redactMessage, h]
  rfl

/-- A password with an `@` in it, percent-encoded as the withheld message asks for. -/
def encodedUrl : Bytes := ascii "postgres://u:p%40ss@h/db"

end MojoHttp.Postgres
