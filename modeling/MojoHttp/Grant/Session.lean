import MojoHttp.Grant.Issue
import MojoHttp.Hmac

/-!
# The session cookie and its CSRF token (`session.mojo`), and what either verifier makes of any text

A session cookie `v1.<kid>.<exp>.<subject>.<tag>` and a grant `v1.<kid>.<exp>.<channel>.<sb>.<tag>` share the
envelope of `SignedToken` and the key ring.

* **`TokenFields.Holds`** — what the envelope asks of a token's fields; `SignedToken.of_wellFormed` has it of every
  text that is let through.
* **`verifySession_outcome`**, **`verifyGrant_outcome`** — the first failing check is the one reported.
* **`issueSession_verified`** — an issued cookie verifies until its expiry, under any ring with its key.
* **`formats_apart`** — no message of one format is one of another.
-/

namespace MojoHttp

open BytesConstant

def SESSION_SUBJECT_MAX : Nat := 64
def SESSION_EXP_MAX : Int64 := 999999999999
def CSRF_MESSAGE_PREFIX : Bytes := ascii "m0csrf1."

structure SessionVerdict where
  ok : Bool
  subject : Bytes
  csrf : Bytes
  reason : Bytes
  deriving Repr, DecidableEq

/-- `session_refused`. -/
def sessionRefused (reason : Bytes) : SessionVerdict := ⟨false, [], [], reason⟩

/-- `_is_subject_byte`. -/
def isSubjectByte (b : UInt8) : Bool :=
  (b ≥ 0x41 && b ≤ 0x5A) || (b ≥ 0x61 && b ≤ 0x7A) || (b ≥ 0x30 && b ≤ 0x39) || b == 0x5F || b == 0x2D || b == 0x3A ||
    b == 0x40

/-- `csrf_token`'s message. -/
def csrfMessage (tag : Bytes) : Bytes := CSRF_MESSAGE_PREFIX ++ tag

/-- `csrf_token`. -/
def csrfToken (mac : Bytes → Bytes) (tag : Bytes) : Bytes := base64url (mac (csrfMessage tag))

/-- The text `issue_session` signs. -/
def sessionSigned (kid : Bytes) (exp : Int64) (subject : Bytes) : Bytes :=
  ascii "v1" ++ ascii "." ++ kid ++ ascii "." ++ intText exp.toInt ++ ascii "." ++ subject

/-- `issue_session`; an error is its text. -/
def issueSession (keys : KeyRing) (subject : Bytes) (exp : Int64) : Except Bytes Bytes :=
  match keys.keys with
  | [] => .error (ascii "issue_session: no key")
  | current :: _ =>
    if exp < 0 then .error (ascii "issue_session: negative expiry")
    else if exp > SESSION_EXP_MAX then
      .error (ascii "issue_session: expiry " ++ intText exp.toInt ++ ascii " is past " ++
        intText SESSION_EXP_MAX.toInt ++ ascii ", which is Unix seconds, not milliseconds")
    else if subject.length == 0 || subject.length > SESSION_SUBJECT_MAX then
      .error (ascii "issue_session: subject length")
    else if subject.any fun b => !isSubjectByte b then .error (ascii "issue_session: subject byte")
    else
      let signed := sessionSigned current.kid exp subject
      .ok (signed ++ ascii "." ++ base64url (current.mac signed))

/-- `verify_session`. -/
def verifySession (cookie : Bytes) (keys : KeyRing) (now : Int64) : SessionVerdict :=
  let token := SignedToken.new cookie 5 16
  if !token.wellFormed then sessionRefused (ascii "malformed")
  else
    let subject := slice cookie (token.start 3) (token.stop 3)
    if subject.length < 1 || subject.length > SESSION_SUBJECT_MAX then sessionRefused (ascii "malformed")
    else if subject.any fun b => !isSubjectByte b then sessionRefused (ascii "malformed")
    else
      let (refused, checked) := token.check cookie keys.keys now
      if !refused.isEmpty then sessionRefused refused
      else
        ⟨true, subject,
          csrfToken (keys.keys.getD checked.key.toNat default).mac (slice cookie (token.start 4) (token.stop 4)), []⟩

/-! ## The envelope of any text -/

/-- The fields of a token: `v1` in front, `middle` the format's own. -/
structure TokenFields where
  kid : Bytes
  digits : Bytes
  middle : List Bytes
  tag : Bytes
  deriving Repr, DecidableEq

namespace TokenFields

/-- The message the tag is over. -/
def signed (f : TokenFields) : Bytes := [DOT].intercalate (ascii "v1" :: f.kid :: f.digits :: f.middle)

def spell (f : TokenFields) : Bytes := f.signed ++ DOT :: f.tag

/-- All fields, in order. -/
def fields (f : TokenFields) : List Bytes := ascii "v1" :: f.kid :: f.digits :: (f.middle ++ [f.tag])

/-- The expiry the digits write. -/
def exp (f : TokenFields) : Nat := f.digits.foldl (fun v b => v * 10 + (b.toNat - 0x30)) 0

/-- What the envelope asks. -/
structure Holds (f : TokenFields) : Prop where
  kid : f.kid.length = GRANT_KID_CHARS ∧ DOT ∉ f.kid
  digits : 1 ≤ f.digits.length ∧ f.digits.length ≤ TOKEN_EXP_DIGITS ∧ ∀ b ∈ f.digits, ZERO ≤ b ∧ b ≤ NINE
  middle : ∀ m ∈ f.middle, DOT ∉ m
  tag : f.tag.length = GRANT_SIG_CHARS ∧ ∀ b ∈ f.tag, isB64urlByte b = true

theorem spell_eq (f : TokenFields) : f.spell = [DOT].intercalate f.fields := by
  have hsnoc : ∀ (fs : List Bytes) (a last : Bytes),
      [DOT].intercalate (a :: fs) ++ DOT :: last = [DOT].intercalate (a :: (fs ++ [last])) := by
    intro fs
    induction fs with
    | nil =>
      intro a last
      rw [List.intercalate_singleton, List.nil_append, List.intercalate_cons_cons, List.intercalate_singleton,
        List.append_assoc]
      rfl
    | cons b fs ih =>
      intro a last
      rw [List.intercalate_cons_cons, List.cons_append, List.intercalate_cons_cons, List.append_assoc, ih]
  exact hsnoc (f.kid :: f.digits :: f.middle) (ascii "v1") f.tag

theorem Holds.dot_notMem {f : TokenFields} (h : f.Holds) : ∀ x ∈ f.fields, DOT ∉ x := by
  have hdigits : DOT ∉ f.digits := fun hdot => absurd (h.digits.2.2 DOT hdot) (by decide)
  have htag : DOT ∉ f.tag := fun hdot => absurd (h.tag.2 DOT hdot) (by decide)
  intro x hx
  rcases List.mem_cons.mp hx with rfl | hx
  · decide
  rcases List.mem_cons.mp hx with rfl | hx
  · exact h.kid.2
  rcases List.mem_cons.mp hx with rfl | hx
  · exact hdigits
  rcases List.mem_append.mp hx with hx | hx
  · exact h.middle x hx
  · rw [List.mem_singleton.mp hx]
    exact htag

theorem getD_last (f : TokenFields) : f.fields.getD (f.fields.length - 1) [] = f.tag := by
  have hlength : f.fields.length - 1 = f.middle.length + 3 := by
    simp [fields]
  rw [hlength]
  simp [fields, List.getD_eq_getElem?_getD]

/-- The envelope's checks of a token made of its fields. -/
theorem Holds.envelope {f : TokenFields} (h : f.Holds) : EnvelopeHolds f.fields f.exp where
  version := rfl
  kid := h.kid.1
  digits := ⟨h.digits.1, h.digits.2.1⟩
  exp := expOf_digits h.digits.2.2 0
  tag := by
    rw [getD_last]
    exact h.tag

theorem digits_of_expOf {field : Bytes} {from' exp : Int} (h : expOf field from' = some exp) :
    ∀ b ∈ field, ZERO ≤ b ∧ b ≤ NINE := by
  induction field generalizing from' with
  | nil => exact fun b hb => absurd hb List.not_mem_nil
  | cons b field ih =>
    unfold expOf at h
    split at h
    · cases h
    · next hdigit =>
      simp only [Bool.or_eq_true, decide_eq_true_eq, not_or] at hdigit
      intro c hc
      rcases List.mem_cons.mp hc with rfl | hc
      · exact ⟨UInt8.not_lt.mp hdigit.1, UInt8.not_lt.mp hdigit.2⟩
      · exact ih h c hc

/-- Read back from fields that pass. -/
theorem of_envelope {fields : List Bytes} {exp : Int} (hfour : 4 ≤ fields.length) (hnot : ∀ x ∈ fields, DOT ∉ x)
    (h : EnvelopeHolds fields exp) : ∃ f : TokenFields, f.fields = fields ∧ f.Holds ∧ (f.exp : Int) = exp := by
  obtain ⟨version, kid, digits, rest, rfl⟩ : ∃ a b c rest, fields = a :: b :: c :: rest := by
    cases fields with
    | nil => cases hfour
    | cons a fields =>
      cases fields with
      | nil => simp at hfour
      | cons b fields =>
        cases fields with
        | nil => simp at hfour
        | cons c rest => exact ⟨a, b, c, rest, rfl⟩
  have hrest : rest ≠ [] := by
    rintro rfl
    simp at hfour
  obtain ⟨middle, tag, rfl⟩ : ∃ middle tag, rest = middle ++ [tag] :=
    ⟨rest.dropLast, rest.getLast hrest, (List.dropLast_append_getLast hrest).symm⟩
  have hversion : version = ascii "v1" := h.version
  subst hversion
  have hdigits := digits_of_expOf h.exp
  have htag := h.tag
  rw [show (ascii "v1" :: kid :: digits :: (middle ++ [tag])) = TokenFields.fields ⟨kid, digits, middle, tag⟩ from rfl,
    getD_last] at htag
  refine ⟨⟨kid, digits, middle, tag⟩, rfl, ⟨⟨h.kid, ?_⟩, ⟨h.digits.1, h.digits.2, hdigits⟩, ?_, htag⟩, ?_⟩
  · exact hnot kid (by simp)
  · intro m hm
    exact hnot m (by simp [hm])
  · have hread := expOf_digits hdigits 0
    exact Option.some.inj (hread.symm.trans h.exp)

end TokenFields

/-! ## The envelope, read from any text -/

theorem scanDots_of_gt {most : Nat} {token : Bytes} {i : Nat} {dots : List Nat} (hroom : dots.length ≤ most)
    (hgt : most < dots.length + (token.idxsOf DOT i).length) : (scanDots most token i dots).2 = false := by
  induction token generalizing i dots with
  | nil =>
    simp at hgt
    omega
  | cons b rest ih =>
    rw [List.idxsOf_cons] at hgt
    unfold scanDots
    cases hdot : b == DOT with
    | true =>
      rw [hdot, if_pos rfl, List.length_cons] at hgt
      rw [if_pos rfl]
      split
      · rfl
      · next hnot =>
        rw [beq_iff_eq] at hnot
        exact ih (by rw [List.length_append, List.length_singleton]; omega)
          (by rw [List.length_append, List.length_singleton]; omega)
    | false =>
      rw [hdot, if_neg Bool.false_ne_true] at hgt
      rw [if_neg Bool.false_ne_true]
      exact ih hroom hgt

/-- Any text, cut at its dots. -/
theorem exists_fields (token : Bytes) : ∃ fields : List Bytes, fields ≠ [] ∧ (∀ f ∈ fields, DOT ∉ f) ∧
    token = [DOT].intercalate fields := by
  induction token with
  | nil => exact ⟨[[]], List.cons_ne_nil _ _, by simp, rfl⟩
  | cons b token ih =>
    obtain ⟨fields, hne, hnot, rfl⟩ := ih
    cases fields with
    | nil => exact absurd rfl hne
    | cons first fields =>
      by_cases hb : b = DOT
      · refine ⟨[] :: first :: fields, List.cons_ne_nil _ _, ?_, ?_⟩
        · rw [List.forall_mem_cons]
          exact ⟨List.not_mem_nil, hnot⟩
        · rw [List.intercalate_cons_cons, hb]
          rfl
      · rw [List.forall_mem_cons] at hnot
        refine ⟨(b :: first) :: fields, List.cons_ne_nil _ _, ?_, ?_⟩
        · rw [List.forall_mem_cons]
          refine ⟨?_, hnot.2⟩
          intro hdot
          rcases List.mem_cons.mp hdot with heq | hin
          · exact hb heq.symm
          · exact hnot.1 hin
        · cases fields with
          | nil => rw [List.intercalate_singleton, List.intercalate_singleton]
          | cons next fields =>
            rw [List.intercalate_cons_cons, List.intercalate_cons_cons]
            rfl

namespace SignedToken

/-- **A well-formed token** spells its fields, which pass. -/
theorem of_wellFormed {token : Bytes} {count minLength : Nat} (hfour : 4 ≤ count)
    (h : (new token count minLength).wellFormed = true) : ∃ f : TokenFields,
      token = f.spell ∧ f.Holds ∧ f.fields.length = count ∧
        new token count minLength = ⟨token.idxsOf DOT, token.length, f.exp, -1, true⟩ := by
  obtain ⟨fields, hne, hnot, htoken⟩ := exists_fields token
  have hmarks : (token.idxsOf DOT).length + 1 = fields.length := by
    rw [htoken]
    exact Fields.length_idxsOf_intercalate hnot hne 0
  have hlength : ¬(token.length < minLength || token.length > TOKEN_MAX) = true := by
    intro hout
    unfold new at h
    rw [if_pos hout] at h
    cases h
  have hcount : fields.length = count := by
    unfold new at h
    rw [if_neg hlength] at h
    rcases Nat.lt_trichotomy fields.length count with hlt | heq | hgt
    · rw [scanDots_of_le (by rw [List.length_nil]; omega)] at h
      dsimp only at h
      rw [List.nil_append, if_pos (by simp only [Bool.not_true, Bool.false_or, bne_iff_ne]; omega)] at h
      cases h
    · exact heq
    · have hscan : (scanDots (count - 1) token 0 []).2 = false :=
        scanDots_of_gt (Nat.zero_le _) (by rw [List.length_nil]; omega)
      dsimp only at h
      rw [hscan, if_pos (by rw [Bool.not_false, Bool.true_or])] at h
      cases h
  subst hcount
  obtain ⟨exp, hholds⟩ := holds_of_wellFormed hnot htoken hfour h
  obtain ⟨f, hfields, hf, hexp⟩ := TokenFields.of_envelope hfour hnot hholds
  simp only [Bool.or_eq_true, decide_eq_true_eq, not_or, Nat.not_lt] at hlength
  have hnew := new_eq hnot htoken hfour hlength.1 hlength.2 hholds
  refine ⟨f, ?_, hf, by rw [hfields], by rw [hnew, hexp]⟩
  rw [f.spell_eq, hfields, htoken]

/-- **Fields that pass** are a well-formed token, within the length limits. -/
theorem new_spell {f : TokenFields} (hf : f.Holds) {count minLength : Nat} (hcount : f.fields.length = count)
    (hmin : minLength ≤ f.spell.length) (hmax : f.spell.length ≤ TOKEN_MAX) :
    new f.spell count minLength = ⟨f.spell.idxsOf DOT, f.spell.length, f.exp, -1, true⟩ := by
  have hfour : 4 ≤ f.fields.length := by
    simp [TokenFields.fields]
  rw [← hcount]
  exact new_eq hf.dot_notMem f.spell_eq hfour hmin hmax hf.envelope

/-- **The checks behind the envelope**, in their order. -/
theorem check_spell {f : TokenFields} (hf : f.Holds) (keys : List GrantKey) (now : Int64) {t : SignedToken}
    (hdots : t.dots = f.spell.idxsOf DOT) (hlength : t.length = f.spell.length) (hexp : t.exp = f.exp) :
    t.check f.spell keys now =
      match findKey keys f.kid with
      | none => (ascii "unknown key", t)
      | some which =>
        if base64url ((keys.getD which default).mac f.signed) ≠ f.tag then (ascii "bad signature", t)
        else if (f.exp : Int) ≤ now.toInt then (ascii "expired", t)
        else ([], { t with key := which }) := by
  have hthree : f.fields.length = f.middle.length + 4 := by
    simp [TokenFields.fields]
  have hmarks : (f.spell.idxsOf DOT).length + 1 = f.fields.length := by
    rw [f.spell_eq]
    exact Fields.length_idxsOf_intercalate hf.dot_notMem (by simp [TokenFields.fields]) 0
  have hlast : t.dots.length = f.fields.length - 1 := by
    rw [hdots]
    omega
  have hkid : slice f.spell (t.start 1) (t.stop 1) = f.kid :=
    slice_field hf.dot_notMem f.spell_eq hdots hlength (by omega)
  have htag : slice f.spell (t.start t.dots.length) t.length = f.tag := by
    have hfield := slice_field hf.dot_notMem f.spell_eq hdots hlength (k := f.fields.length - 1) (by omega)
    have hend : t.stop (f.fields.length - 1) = t.length := by
      unfold stop Fields.stop
      rw [if_neg (by omega)]
    rw [hend, TokenFields.getD_last] at hfield
    rw [hlast]
    exact hfield
  have hsigned : slice f.spell 0 (t.dots.getD (t.dots.length - 1) 0) = f.signed := by
    have hdot : DOT ∉ f.tag := hf.dot_notMem f.tag (by simp [TokenFields.fields])
    have hat : (f.spell.idxsOf DOT).getD ((f.spell.idxsOf DOT).length - 1) 0 = f.signed.length :=
      Fields.getD_idxsOf_last hdot f.signed
    rw [hdots, hat, TokenFields.spell]
    simp [slice]
  unfold check
  dsimp only
  rw [hkid]
  cases findKey keys f.kid with
  | none => rfl
  | some which =>
    dsimp only
    rw [hsigned, htag, hexp]
    by_cases hsame : base64url ((keys.getD which default).mac f.signed) = f.tag
    · rw [constantTimeEqual_iff.mpr hsame, if_neg (by decide), if_neg (not_not.mpr hsame)]
    · have hdiffer : constantTimeEqual (base64url ((keys.getD which default).mac f.signed)) f.tag = false :=
        Bool.eq_false_iff.mpr (mt constantTimeEqual_iff.mp hsame)
      rw [hdiffer, if_pos (by decide), if_pos hsame]

end SignedToken

/-! ## Sessions -/

/-- What `verify_session` asks of a subject. -/
def SubjectHolds (subject : Bytes) : Prop :=
  1 ≤ subject.length ∧ subject.length ≤ SESSION_SUBJECT_MAX ∧ ∀ b ∈ subject, isSubjectByte b = true

/-- A cookie of the session format: its fields, one of them the subject. -/
structure SessionFormed (cookie : Bytes) (f : TokenFields) (subject : Bytes) : Prop where
  spelled : cookie = f.spell
  holds : f.Holds
  middle : f.middle = [subject]
  subject : SubjectHolds subject

/-- The key a token names: the first of the ring with its id. -/
def Names (keys : List GrantKey) (kid : Bytes) (key : GrantKey) : Prop :=
  ∃ which, findKey keys kid = some which ∧ keys.getD which default = key

/-- Each outcome of the verifier, with every check in front of it passed. -/
inductive SessionOutcome (cookie : Bytes) (keys : KeyRing) (now : Int64) : SessionVerdict → Prop
  | malformed (h : ∀ f subject, ¬SessionFormed cookie f subject) :
    SessionOutcome cookie keys now (sessionRefused (ascii "malformed"))
  | unknownKey (f : TokenFields) (subject : Bytes) (h : SessionFormed cookie f subject)
      (hkey : ∀ key ∈ keys.keys, key.kid ≠ f.kid) : SessionOutcome cookie keys now (sessionRefused (ascii "unknown key"))
  | badSignature (f : TokenFields) (subject : Bytes) (key : GrantKey) (h : SessionFormed cookie f subject)
      (hkey : Names keys.keys f.kid key) (htag : f.tag ≠ base64url (key.mac f.signed)) :
    SessionOutcome cookie keys now (sessionRefused (ascii "bad signature"))
  | expired (f : TokenFields) (subject : Bytes) (key : GrantKey) (h : SessionFormed cookie f subject)
      (hkey : Names keys.keys f.kid key) (htag : f.tag = base64url (key.mac f.signed)) (hnow : (f.exp : Int) ≤ now.toInt) :
    SessionOutcome cookie keys now (sessionRefused (ascii "expired"))
  | accepted (f : TokenFields) (subject : Bytes) (key : GrantKey) (h : SessionFormed cookie f subject)
      (hkey : Names keys.keys f.kid key) (htag : f.tag = base64url (key.mac f.signed)) (hnow : now.toInt < f.exp) :
    SessionOutcome cookie keys now ⟨true, subject, csrfToken key.mac f.tag, []⟩

theorem findKey_eq_none {keys : List GrantKey} {kid : Bytes} (h : findKey keys kid = none) :
    ∀ key ∈ keys, key.kid ≠ kid := by
  intro key hkey heq
  have hall := List.findIdx?_eq_none_iff.mp h key hkey
  rw [heq, beq_self_eq_true] at hall
  cases hall

/-- A subject has no dot. -/
theorem SubjectHolds.dot_notMem {subject : Bytes} (h : SubjectHolds subject) : DOT ∉ subject :=
  fun hdot => absurd (h.2.2 DOT hdot) (by decide)

/-- How long a token is. -/
theorem length_spell {f : TokenFields} (hf : f.Holds) :
    f.spell.length = 56 + f.digits.length + (f.middle.map fun m => m.length + 1).sum := by
  have hjoin : ∀ (fs : List Bytes) (a : Bytes),
      ([DOT].intercalate (a :: fs)).length = a.length + (fs.map fun m => m.length + 1).sum := by
    intro fs
    induction fs with
    | nil =>
      intro a
      rw [List.intercalate_singleton]
      rfl
    | cons b fs ih =>
      intro a
      rw [List.intercalate_cons_cons, List.length_append, List.length_append, ih, List.length_singleton, List.map_cons,
        List.sum_cons]
      omega
  have hkid : f.kid.length = 8 := hf.kid.1
  have htag : f.tag.length = 43 := hf.tag.1
  rw [TokenFields.spell, List.length_append, List.length_cons, TokenFields.signed, hjoin, List.map_cons, List.map_cons,
    List.sum_cons, List.sum_cons, show (ascii "v1").length = 2 from rfl, hkid, htag]
  omega

/-- The verifier on a cookie of the format. -/
theorem verifySession_formed {cookie : Bytes} {f : TokenFields} {subject : Bytes} (h : SessionFormed cookie f subject)
    (keys : KeyRing) (now : Int64) :
    verifySession cookie keys now =
      match findKey keys.keys f.kid with
      | none => sessionRefused (ascii "unknown key")
      | some which =>
        if base64url ((keys.keys.getD which default).mac f.signed) ≠ f.tag then sessionRefused (ascii "bad signature")
        else if (f.exp : Int) ≤ now.toInt then sessionRefused (ascii "expired")
        else ⟨true, subject, csrfToken (keys.keys.getD which default).mac f.tag, []⟩ := by
  obtain ⟨rfl, hf, hmiddle, hleast, hmost, hbytes⟩ := h
  have hmax : SESSION_SUBJECT_MAX = 64 ∧ TOKEN_EXP_DIGITS = 12 ∧ TOKEN_MAX = 400 := ⟨rfl, rfl, rfl⟩
  have hlen := length_spell hf
  rw [hmiddle, List.map_singleton, List.sum_singleton] at hlen
  have hdigits := hf.digits.2.1
  have hfields : f.fields = [ascii "v1", f.kid, f.digits, subject, f.tag] := by
    rw [TokenFields.fields, hmiddle]
    rfl
  have hcount : f.fields.length = 5 := by rw [hfields]; rfl
  have hleast : 16 ≤ f.spell.length := by omega
  have hnew := SignedToken.new_spell hf hcount hleast (by omega)
  unfold verifySession
  rw [hnew]
  generalize ht : (⟨f.spell.idxsOf DOT, f.spell.length, f.exp, -1, true⟩ : SignedToken) = t
  have hdots : t.dots = f.spell.idxsOf DOT := by rw [← ht]
  have hlength : t.length = f.spell.length := by rw [← ht]
  have hformed : t.wellFormed = true := by rw [← ht]
  have hexp : t.exp = f.exp := by rw [← ht]
  have hsubject : slice f.spell (t.start 3) (t.stop 3) = subject := by
    rw [SignedToken.slice_field hf.dot_notMem f.spell_eq hdots hlength (by omega), hfields]
    rfl
  have htag : slice f.spell (t.start 4) (t.stop 4) = f.tag := by
    rw [SignedToken.slice_field hf.dot_notMem f.spell_eq hdots hlength (by omega), hfields]
    rfl
  have hrange : ¬(subject.length < 1 || subject.length > SESSION_SUBJECT_MAX) = true := by
    simp only [Bool.or_eq_true, decide_eq_true_eq, not_or]
    omega
  have hclean : ¬(subject.any fun b => !isSubjectByte b) = true := by
    rw [Bool.not_eq_true, List.any_eq_false]
    intro b hb
    rw [hbytes b hb]
    decide
  dsimp only
  rw [hformed, hsubject, htag, if_neg (by decide), if_neg hrange, if_neg hclean]
  have hcheck := SignedToken.check_spell hf keys.keys now hdots hlength hexp
  generalize t.check f.spell keys.keys now = checked at hcheck ⊢
  cases hkey : findKey keys.keys f.kid with
  | none =>
    rw [hkey] at hcheck
    rw [hcheck]
    rfl
  | some which =>
    rw [hkey] at hcheck
    dsimp only at hcheck ⊢
    by_cases hsame : base64url ((keys.keys.getD which default).mac f.signed) = f.tag
    · rw [if_neg (not_not.mpr hsame)] at hcheck ⊢
      by_cases hnow : (f.exp : Int) ≤ now.toInt
      · rw [if_pos hnow] at hcheck ⊢
        rw [hcheck]
        rfl
      · rw [if_neg hnow] at hcheck ⊢
        rw [hcheck]
        rfl
    · rw [if_pos hsame] at hcheck ⊢
      rw [hcheck]
      rfl

/-- **A cookie the verifier does not call malformed** is one of the format. -/
theorem verifySession_malformed {cookie : Bytes} (h : ∀ f subject, ¬SessionFormed cookie f subject) (keys : KeyRing)
    (now : Int64) : verifySession cookie keys now = sessionRefused (ascii "malformed") := by
  unfold verifySession
  dsimp only
  cases hformed : (SignedToken.new cookie 5 16).wellFormed with
  | false => rw [if_pos (by decide)]
  | true =>
    obtain ⟨f, hspelled, hf, hcount, hnew⟩ := SignedToken.of_wellFormed (by decide) hformed
    obtain ⟨subject, hmiddle⟩ : ∃ subject, f.middle = [subject] := by
      rw [← List.length_eq_one_iff]
      simp [TokenFields.fields] at hcount
      omega
    have hfields : f.fields = [ascii "v1", f.kid, f.digits, subject, f.tag] := by
      rw [TokenFields.fields, hmiddle]
      rfl
    generalize SignedToken.new cookie 5 16 = t at *
    have hdots : t.dots = f.spell.idxsOf DOT := by rw [hnew, hspelled]
    have hlength : t.length = f.spell.length := by rw [hnew, hspelled]
    have hsubject : slice cookie (t.start 3) (t.stop 3) = subject := by
      rw [hspelled, SignedToken.slice_field hf.dot_notMem f.spell_eq hdots hlength (by omega), hfields]
      rfl
    rw [if_neg (by decide), hsubject]
    by_cases hrange : (subject.length < 1 || subject.length > SESSION_SUBJECT_MAX) = true
    · rw [if_pos hrange]
    · rw [if_neg hrange]
      by_cases hclean : (subject.any fun b => !isSubjectByte b) = true
      · rw [if_pos hclean]
      · refine absurd ⟨hspelled, hf, hmiddle, ?_⟩ (h f subject)
        simp only [Bool.or_eq_true, decide_eq_true_eq, not_or] at hrange
        refine ⟨by omega, by omega, ?_⟩
        rw [Bool.not_eq_true, List.any_eq_false] at hclean
        intro b hb
        have hbyte := hclean b hb
        rw [Bool.not_eq_true, Bool.not_eq_false'] at hbyte
        exact hbyte

/-- **The first failing check** is the one `verify_session` reports. -/
theorem verifySession_outcome (cookie : Bytes) (keys : KeyRing) (now : Int64) :
    SessionOutcome cookie keys now (verifySession cookie keys now) := by
  by_cases hformed : ∃ f subject, SessionFormed cookie f subject
  · obtain ⟨f, subject, h⟩ := hformed
    rw [verifySession_formed h keys now]
    cases hkey : findKey keys.keys f.kid with
    | none => exact .unknownKey f subject h (findKey_eq_none hkey)
    | some which =>
      have hnames : Names keys.keys f.kid (keys.keys.getD which default) := ⟨which, hkey, rfl⟩
      dsimp only
      by_cases hsame : base64url ((keys.keys.getD which default).mac f.signed) = f.tag
      · rw [if_neg (not_not.mpr hsame)]
        by_cases hnow : (f.exp : Int) ≤ now.toInt
        · rw [if_pos hnow]
          exact .expired f subject _ h hnames hsame.symm hnow
        · rw [if_neg hnow]
          exact .accepted f subject _ h hnames hsame.symm (by omega)
      · rw [if_pos hsame]
        exact .badSignature f subject _ h hnames fun heq => hsame heq.symm
  · have hnone : ∀ f subject, ¬SessionFormed cookie f subject := fun f subject h => hformed ⟨f, subject, h⟩
    rw [verifySession_malformed hnone keys now]
    exact .malformed hnone

/-! ## Grants -/

/-- The binding of a grant to a session, `-` where it has none. -/
def BindingHolds (sb : Bytes) : Prop :=
  sb = ascii "-" ∨ sb.length = GRANT_SB_CHARS ∧ ∀ b ∈ sb, isB64urlByte b = true

/-- A grant of the format: its fields, two of them the channel and the binding. -/
structure GrantFormed (grant : Bytes) (f : TokenFields) (channel sb : Bytes) : Prop where
  spelled : grant = f.spell
  holds : f.Holds
  middle : f.middle = [channel, sb]
  channel : channelHolds channel = true
  binding : BindingHolds sb

/-- What passed in front of the checks of the cookie: the key is known, the tag is its own, the clock is before the
expiry. -/
structure GrantSigned (grant : Bytes) (keys : GrantKeys) (now : Int64) (f : TokenFields) (channel sb : Bytes)
    (key : GrantKey) : Prop extends GrantFormed grant f channel sb where
  names : Names keys.ring.keys f.kid key
  tagged : f.tag = base64url (key.mac f.signed)
  inDate : now.toInt < f.exp

/-- Each outcome of the verifier, with every check in front of it passed. -/
inductive GrantOutcome (h : Hashing) (grant : Bytes) (keys : GrantKeys) (now : Int64) (cookie : Option Bytes) :
    GrantVerdict → Prop
  | malformed (hnot : ∀ f channel sb, ¬GrantFormed grant f channel sb) :
    GrantOutcome h grant keys now cookie (refuse (ascii "malformed"))
  | unknownKey (f : TokenFields) (channel sb : Bytes) (hformed : GrantFormed grant f channel sb)
      (hkey : ∀ key ∈ keys.ring.keys, key.kid ≠ f.kid) :
    GrantOutcome h grant keys now cookie (refuse (ascii "unknown key"))
  | badSignature (f : TokenFields) (channel sb : Bytes) (key : GrantKey) (hformed : GrantFormed grant f channel sb)
      (hkey : Names keys.ring.keys f.kid key) (htag : f.tag ≠ base64url (key.mac f.signed)) :
    GrantOutcome h grant keys now cookie (refuse (ascii "bad signature"))
  | expired (f : TokenFields) (channel sb : Bytes) (key : GrantKey) (hformed : GrantFormed grant f channel sb)
      (hkey : Names keys.ring.keys f.kid key) (htag : f.tag = base64url (key.mac f.signed))
      (hnow : (f.exp : Int) ≤ now.toInt) : GrantOutcome h grant keys now cookie (refuse (ascii "expired"))
  | noCookie (f : TokenFields) (channel sb : Bytes) (key : GrantKey) (hsigned : GrantSigned grant keys now f channel sb key)
      (hbound : sb ≠ ascii "-") (hcookie : cookie = none) :
    GrantOutcome h grant keys now cookie (refuse (ascii "no session cookie"))
  | mismatch (f : TokenFields) (channel sb : Bytes) (key : GrantKey) (hsigned : GrantSigned grant keys now f channel sb key)
      (hbound : sb ≠ ascii "-") (value : Bytes) (hcookie : cookie = some value) (hdiffer : sb ≠ sessionBinding h value) :
    GrantOutcome h grant keys now cookie (refuse (ascii "session mismatch"))
  | accepted (f : TokenFields) (channel sb : Bytes) (key : GrantKey) (hsigned : GrantSigned grant keys now f channel sb key)
      (hbound : sb = ascii "-" ∨ ∃ value, cookie = some value ∧ sb = sessionBinding h value) :
    GrantOutcome h grant keys now cookie ⟨true, channel, []⟩

/-- The last checks, of the cookie. -/
def cookieVerdict (h : Hashing) (channel sb : Bytes) (cookie : Option Bytes) : GrantVerdict :=
  if sb = ascii "-" then ⟨true, channel, []⟩
  else
    match cookie with
    | none => refuse (ascii "no session cookie")
    | some value => if sessionBinding h value = sb then ⟨true, channel, []⟩ else refuse (ascii "session mismatch")

theorem bound_eq (sb : Bytes) : (!(sb.length == 1 && sb.getD 0 0 == 0x2D)) = !decide (sb = ascii "-") := by
  cases sb with
  | nil => rfl
  | cons b sb =>
    cases sb with
    | nil =>
      rw [Bool.eq_iff_iff]
      simp [ascii]
    | cons c sb =>
      rw [Bool.eq_iff_iff]
      simp [ascii]

/-- The check of the binding's own spelling. -/
theorem bindingHolds_iff (sb : Bytes) : BindingHolds sb ↔
    ¬(!(sb.length == 1 && sb.getD 0 0 == 0x2D) &&
      (sb.length != GRANT_SB_CHARS || sb.any fun b => !isB64urlByte b)) = true := by
  rw [bound_eq]
  unfold BindingHolds
  by_cases hsb : sb = ascii "-"
  · simp [hsb]
  · simp [hsb]

/-- The verifier on a grant of the format. -/
theorem verifyGrant_formed (h : Hashing) {grant : Bytes} {f : TokenFields} {channel sb : Bytes}
    (hformed : GrantFormed grant f channel sb) (keys : GrantKeys) (now : Int64) (cookie : Option Bytes) :
    verifyGrant h grant keys now cookie =
      match findKey keys.ring.keys f.kid with
      | none => refuse (ascii "unknown key")
      | some which =>
        if base64url ((keys.ring.keys.getD which default).mac f.signed) ≠ f.tag then refuse (ascii "bad signature")
        else if (f.exp : Int) ≤ now.toInt then refuse (ascii "expired")
        else cookieVerdict h channel sb cookie := by
  obtain ⟨rfl, hf, hmiddle, hchannel, hbinding⟩ := hformed
  obtain ⟨-, hmost, -⟩ := channelHolds_iff.mp hchannel
  have hmax : GRANT_CHANNEL_MAX = 64 ∧ TOKEN_EXP_DIGITS = 12 ∧ TOKEN_MAX = 400 ∧ GRANT_SB_CHARS = 22 :=
    ⟨rfl, rfl, rfl, rfl⟩
  have hsbLength : sb.length ≤ 22 := by
    rcases hbinding with rfl | hlong
    · decide
    · omega
  have hlen := length_spell hf
  rw [hmiddle, List.map_cons, List.map_singleton, List.sum_cons, List.sum_singleton] at hlen
  have hdigits := hf.digits.2.1
  have hfields : f.fields = [ascii "v1", f.kid, f.digits, channel, sb, f.tag] := by
    rw [TokenFields.fields, hmiddle]
    rfl
  have hcount : f.fields.length = 6 := by rw [hfields]; rfl
  have hleast : 20 ≤ f.spell.length := by omega
  have hnew := SignedToken.new_spell hf hcount hleast (by omega)
  unfold verifyGrant
  rw [hnew]
  generalize ht : (⟨f.spell.idxsOf DOT, f.spell.length, f.exp, -1, true⟩ : SignedToken) = t
  have hdots : t.dots = f.spell.idxsOf DOT := by rw [← ht]
  have hlength : t.length = f.spell.length := by rw [← ht]
  have hwell : t.wellFormed = true := by rw [← ht]
  have hexp : t.exp = f.exp := by rw [← ht]
  have hthree : slice f.spell (t.start 3) (t.stop 3) = channel := by
    rw [SignedToken.slice_field hf.dot_notMem f.spell_eq hdots hlength (by omega), hfields]
    rfl
  have hfour : slice f.spell (t.start 4) (t.stop 4) = sb := by
    rw [SignedToken.slice_field hf.dot_notMem f.spell_eq hdots hlength (by omega), hfields]
    rfl
  have hcheck := SignedToken.check_spell hf keys.ring.keys now hdots hlength hexp
  dsimp only
  rw [hwell, hthree, hfour, hchannel, if_neg (by decide), if_neg (by decide),
    if_neg ((bindingHolds_iff sb).mp hbinding), bound_eq]
  generalize t.check f.spell keys.ring.keys now = checked at hcheck ⊢
  cases hkey : findKey keys.ring.keys f.kid with
  | none =>
    rw [hkey] at hcheck
    rw [hcheck]
    rfl
  | some which =>
    rw [hkey] at hcheck
    dsimp only at hcheck ⊢
    by_cases hsame : base64url ((keys.ring.keys.getD which default).mac f.signed) = f.tag
    · rw [if_neg (not_not.mpr hsame)] at hcheck ⊢
      by_cases hnow : (f.exp : Int) ≤ now.toInt
      · rw [if_pos hnow] at hcheck ⊢
        rw [hcheck]
        rfl
      · rw [if_neg hnow] at hcheck ⊢
        rw [hcheck, if_neg (by simp)]
        unfold cookieVerdict
        by_cases hsb : sb = ascii "-"
        · rw [if_pos hsb, if_neg (by simp [hsb])]
        · rw [if_neg hsb, if_pos (by simp [hsb])]
          cases cookie with
          | none => rfl
          | some value =>
            dsimp only
            by_cases hvalue : sessionBinding h value = sb
            · rw [if_pos hvalue, constantTimeEqual_iff.mpr hvalue, if_neg (by decide)]
            · rw [if_neg hvalue, Bool.eq_false_iff.mpr (mt constantTimeEqual_iff.mp hvalue), if_pos (by decide)]
    · rw [if_pos hsame] at hcheck ⊢
      rw [hcheck]
      rfl

theorem verifyGrant_malformed (h : Hashing) {grant : Bytes} (hnot : ∀ f channel sb, ¬GrantFormed grant f channel sb)
    (keys : GrantKeys) (now : Int64) (cookie : Option Bytes) :
    verifyGrant h grant keys now cookie = refuse (ascii "malformed") := by
  unfold verifyGrant
  dsimp only
  cases hwell : (SignedToken.new grant 6 20).wellFormed with
  | false => rw [if_pos (by decide)]
  | true =>
    obtain ⟨f, hspelled, hf, hcount, hnew⟩ := SignedToken.of_wellFormed (by decide) hwell
    obtain ⟨channel, sb, hmiddle⟩ : ∃ channel sb, f.middle = [channel, sb] := by
      rw [← List.length_eq_two]
      simp [TokenFields.fields] at hcount
      omega
    have hfields : f.fields = [ascii "v1", f.kid, f.digits, channel, sb, f.tag] := by
      rw [TokenFields.fields, hmiddle]
      rfl
    generalize SignedToken.new grant 6 20 = t at *
    have hdots : t.dots = f.spell.idxsOf DOT := by rw [hnew, hspelled]
    have hlength : t.length = f.spell.length := by rw [hnew, hspelled]
    have hthree : slice grant (t.start 3) (t.stop 3) = channel := by
      rw [hspelled, SignedToken.slice_field hf.dot_notMem f.spell_eq hdots hlength (by omega), hfields]
      rfl
    have hfour : slice grant (t.start 4) (t.stop 4) = sb := by
      rw [hspelled, SignedToken.slice_field hf.dot_notMem f.spell_eq hdots hlength (by omega), hfields]
      rfl
    rw [if_neg (by decide), hthree, hfour]
    by_cases hchannel : channelHolds channel = true
    · rw [hchannel, if_neg (by decide)]
      by_cases hbinding : BindingHolds sb
      · exact absurd ⟨hspelled, hf, hmiddle, hchannel, hbinding⟩ (hnot f channel sb)
      · rw [bindingHolds_iff, not_not] at hbinding
        rw [if_pos hbinding]
    · rw [Bool.not_eq_true] at hchannel
      rw [hchannel, if_pos (by decide)]

/-- **The first failing check** is the one `verify_grant` reports. -/
theorem verifyGrant_outcome (h : Hashing) (grant : Bytes) (keys : GrantKeys) (now : Int64) (cookie : Option Bytes) :
    GrantOutcome h grant keys now cookie (verifyGrant h grant keys now cookie) := by
  by_cases hexists : ∃ f channel sb, GrantFormed grant f channel sb
  · obtain ⟨f, channel, sb, hformed⟩ := hexists
    rw [verifyGrant_formed h hformed keys now cookie]
    cases hkey : findKey keys.ring.keys f.kid with
    | none => exact .unknownKey f channel sb hformed (findKey_eq_none hkey)
    | some which =>
      have hnames : Names keys.ring.keys f.kid (keys.ring.keys.getD which default) := ⟨which, hkey, rfl⟩
      dsimp only
      by_cases hsame : base64url ((keys.ring.keys.getD which default).mac f.signed) = f.tag
      · rw [if_neg (not_not.mpr hsame)]
        by_cases hnow : (f.exp : Int) ≤ now.toInt
        · rw [if_pos hnow]
          exact .expired f channel sb _ hformed hnames hsame.symm hnow
        · rw [if_neg hnow]
          have hsigned : GrantSigned grant keys now f channel sb (keys.ring.keys.getD which default) :=
            { hformed with names := hnames, tagged := hsame.symm, inDate := by omega }
          unfold cookieVerdict
          by_cases hsb : sb = ascii "-"
          · rw [if_pos hsb]
            exact .accepted f channel sb _ hsigned (Or.inl hsb)
          · rw [if_neg hsb]
            cases cookie with
            | none => exact .noCookie f channel sb _ hsigned hsb rfl
            | some value =>
              dsimp only
              by_cases hvalue : sessionBinding h value = sb
              · rw [if_pos hvalue]
                exact .accepted f channel sb _ hsigned (Or.inr ⟨value, rfl, hvalue.symm⟩)
              · rw [if_neg hvalue]
                exact .mismatch f channel sb _ hsigned hsb value rfl fun heq => hvalue heq.symm
      · rw [if_pos hsame]
        exact .badSignature f channel sb _ hformed hnames fun heq => hsame heq.symm
  · have hnone : ∀ f channel sb, ¬GrantFormed grant f channel sb := fun f channel sb hformed =>
      hexists ⟨f, channel, sb, hformed⟩
    rw [verifyGrant_malformed h hnone keys now cookie]
    exact .malformed hnone

/-! ## What is issued -/

/-- The ring the texts of some keys make, in their order. -/
def KeyRing.of (h : Hashing) (keys : List Bytes) : KeyRing := keys.foldl (KeyRing.add h) ⟨[]⟩

theorem KeyRing.keys_of (h : Hashing) (keys : List Bytes) : (KeyRing.of h keys).keys = keys.map (GrantKey.new h) := by
  have hadd : ∀ (keys : List Bytes) (ring : KeyRing),
      (keys.foldl (KeyRing.add h) ring).keys = ring.keys ++ keys.map (GrantKey.new h) := by
    intro keys
    induction keys with
    | nil => intro ring; rw [List.foldl_nil, List.map_nil, List.append_nil]
    | cons key keys ih =>
      intro ring
      rw [List.foldl_cons, ih, KeyRing.add, List.append_assoc, List.map_cons]
      rfl
  exact hadd keys ⟨[]⟩

/-- The fields of an issued session. -/
def sessionFields (h : Hashing) (key : Bytes) (exp : Int64) (subject : Bytes) : TokenFields :=
  ⟨grantKeyId h key, intText exp.toInt, [subject],
    base64url (h.hmacSha256 key (sessionSigned (grantKeyId h key) exp subject))⟩

/-- The expiries `issue_session` lets through. -/
def ExpiryHolds (exp : Int64) : Prop := 0 ≤ exp ∧ exp ≤ SESSION_EXP_MAX

theorem signed_sessionFields (h : Hashing) (key : Bytes) (exp : Int64) (subject : Bytes) :
    (sessionFields h key exp subject).signed = sessionSigned (grantKeyId h key) exp subject := by
  simp [TokenFields.signed, sessionFields, sessionSigned, List.intercalate, ascii, DOT]

/-- **`issue_session`** signs under the first key of the ring, or raises. -/
theorem issueSession_eq_ok {h : Hashing} {keys : List Bytes} {subject cookie : Bytes} {exp : Int64} :
    issueSession (KeyRing.of h keys) subject exp = .ok cookie ↔
      ∃ key, keys.head? = some key ∧ ExpiryHolds exp ∧ SubjectHolds subject ∧
        cookie = (sessionFields h key exp subject).spell := by
  have hspell : ∀ key, (sessionFields h key exp subject).spell =
      sessionSigned (grantKeyId h key) exp subject ++ ascii "." ++
        base64url (h.hmacSha256 key (sessionSigned (grantKeyId h key) exp subject)) := by
    intro key
    rw [TokenFields.spell, signed_sessionFields, List.append_assoc]
    rfl
  unfold issueSession
  rw [KeyRing.keys_of]
  cases keys with
  | nil =>
    refine iff_of_false (fun heq => by cases heq) ?_
    rintro ⟨key, hkey, -⟩
    cases hkey
  | cons key keys =>
    rw [List.map_cons]
    unfold ExpiryHolds SubjectHolds
    dsimp only
    have hleast : exp < 0 ↔ ¬0 ≤ exp := Int64.not_le.symm
    have hmost : exp > SESSION_EXP_MAX ↔ ¬exp ≤ SESSION_EXP_MAX := Int64.not_le.symm
    by_cases hneg : exp < 0
    · rw [if_pos hneg]
      refine iff_of_false (fun heq => by cases heq) ?_
      rintro ⟨-, -, hexp, -⟩
      exact hleast.mp hneg hexp.1
    rw [if_neg hneg]
    by_cases hpast : exp > SESSION_EXP_MAX
    · rw [if_pos hpast]
      refine iff_of_false (fun heq => by cases heq) ?_
      rintro ⟨-, -, hexp, -⟩
      exact hmost.mp hpast hexp.2
    rw [if_neg hpast]
    by_cases hrange : (subject.length == 0 || subject.length > SESSION_SUBJECT_MAX) = true
    · rw [if_pos hrange]
      refine iff_of_false (fun heq => by cases heq) ?_
      rintro ⟨-, -, -, hsubject, -⟩
      simp only [Bool.or_eq_true, beq_iff_eq, decide_eq_true_eq] at hrange
      omega
    rw [if_neg hrange]
    by_cases hany : (subject.any fun b => !isSubjectByte b) = true
    · rw [if_pos hany]
      refine iff_of_false (fun heq => by cases heq) ?_
      rintro ⟨-, -, -, hsubject, -⟩
      obtain ⟨b, hb, hbyte⟩ := List.any_eq_true.mp hany
      rw [hsubject.2.2 b hb] at hbyte
      cases hbyte
    rw [if_neg hany, Except.ok.injEq]
    constructor
    · intro hcookie
      simp only [Bool.or_eq_true, beq_iff_eq, decide_eq_true_eq, not_or] at hrange
      rw [Bool.not_eq_true, List.any_eq_false] at hany
      refine ⟨key, rfl, ⟨not_not.mp (mt hleast.mpr hneg), not_not.mp (mt hmost.mpr hpast)⟩,
        ⟨by omega, by omega, fun b hb => by simpa using hany b hb⟩, ?_⟩
      rw [← hcookie, hspell]
      rfl
    · rintro ⟨key', hkey, -, -, hcookie⟩
      cases hkey
      rw [hcookie, hspell]
      rfl

/-- An issued cookie is one of the format, and its digits are the expiry. -/
theorem sessionFormed_sessionFields (h : Hashing) (key : Bytes) {exp : Int64} {subject : Bytes} (hexp : ExpiryHolds exp)
    (hsubject : SubjectHolds subject) :
    SessionFormed (sessionFields h key exp subject).spell (sessionFields h key exp subject) subject ∧
      ((sessionFields h key exp subject).exp : Int) = exp.toInt := by
  have hpos : 0 ≤ exp.toInt := Int64.le_iff_toInt_le.mp hexp.1
  have hmost : exp.toInt ≤ 999999999999 := Int64.le_iff_toInt_le.mp hexp.2
  have htext : intText exp.toInt = decimal exp.toInt.natAbs := if_neg (by omega)
  have hlong : (decimal exp.toInt.natAbs).length ≤ TOKEN_EXP_DIGITS :=
    (length_decimal_le (by decide)).mpr (Nat.lt_of_le_of_lt (m := 999999999999) (by omega) (by decide))
  refine ⟨⟨rfl, ⟨?_, ?_, ?_, ?_⟩, rfl, hsubject⟩, ?_⟩
  · exact ⟨length_grantKeyId h key, dot_notMem_grantKeyId h key⟩
  · show 1 ≤ (intText exp.toInt).length ∧ _
    rw [show (sessionFields h key exp subject).digits = intText exp.toInt from rfl, htext]
    exact ⟨List.length_pos_iff.mpr (decimal_ne_nil _), hlong, decimal_digits _⟩
  · intro m hm
    rw [List.mem_singleton.mp hm]
    exact hsubject.dot_notMem
  · refine ⟨?_, fun b => isB64urlByte_of_mem_base64url⟩
    show (base64url _).length = GRANT_SIG_CHARS
    rw [length_base64url, h.length_hmacSha256]
    rfl
  · unfold TokenFields.exp
    rw [show (sessionFields h key exp subject).digits = intText exp.toInt from rfl, htext, foldl_decimal]
    omega

/-- **An issued cookie** verifies for its subject until its expiry, under every ring of distinct ids that holds the
key it was issued under. -/
theorem issueSession_verified {h : Hashing} {keys : List Bytes} {subject cookie : Bytes} {exp : Int64}
    (hissue : issueSession (KeyRing.of h keys) subject exp = .ok cookie) {key : Bytes} (hkey : keys.head? = some key)
    {ring : KeyRing} (hmem : GrantKey.new h key ∈ ring.keys) (hdistinct : (ring.keys.map GrantKey.kid).Nodup)
    (now : Int64) :
    verifySession cookie ring now =
      if now < exp then
        ⟨true, subject, csrfToken (h.hmacSha256 key) (sessionFields h key exp subject).tag, []⟩
      else sessionRefused (ascii "expired") := by
  obtain ⟨key', hkey', hexp, hsubject, rfl⟩ := issueSession_eq_ok.mp hissue
  rw [hkey, Option.some.injEq] at hkey'
  subst hkey'
  obtain ⟨hformed, hvalue⟩ := sessionFormed_sessionFields h key hexp hsubject
  obtain ⟨which, hfound, hwhich⟩ := findKey_of_mem hmem hdistinct
  rw [verifySession_formed hformed ring now]
  rw [show (sessionFields h key exp subject).kid = (GrantKey.new h key).kid from rfl, hfound]
  dsimp only
  have hsame : ¬base64url ((GrantKey.new h key).mac (sessionSigned (grantKeyId h key) exp subject)) ≠
      (sessionFields h key exp subject).tag := not_not.mpr rfl
  rw [hwhich, signed_sessionFields, hvalue, if_neg hsame]
  by_cases hnow : now < exp
  · rw [if_pos hnow, if_neg (by have := Int64.lt_iff_toInt_lt.mp hnow; omega)]
    rfl
  · rw [if_neg hnow, if_pos (Int64.le_iff_toInt_le.mp (Int64.not_lt.mp hnow))]

/-! ## What goes through the MAC -/

/-- What `issue_session` signs. -/
def SessionMessage (h : Hashing) (m : Bytes) : Prop :=
  ∃ keys key subject exp cookie, issueSession (KeyRing.of h keys) subject exp = .ok cookie ∧ keys.head? = some key ∧
    m = sessionSigned (grantKeyId h key) exp subject

/-- What an issuer of grants signs, for a channel of the format. -/
def GrantMessage (h : Hashing) (m : Bytes) : Prop :=
  ∃ (Clock : Type) (host : Host Clock) (i : Issuance Clock) (key : Bytes) (exp : Int) (text sb : Bytes),
    i.Signs h host key exp text sb ∧ channelHolds text = true ∧ m = signedText h key exp text sb

/-- What `csrf_token` signs. -/
def CsrfMessage (m : Bytes) : Prop := ∃ tag, m = csrfMessage tag

/-- A session's message has three dots, a grant's four; both begin with `v`. -/
theorem SessionMessage.shape {h : Hashing} {m : Bytes} (hm : SessionMessage h m) :
    (m.idxsOf DOT).length = 3 ∧ m.head? = some 0x76 := by
  obtain ⟨keys, key, subject, exp, cookie, hissue, -, rfl⟩ := hm
  obtain ⟨-, -, hexp, hsubject, -⟩ := issueSession_eq_ok.mp hissue
  have hholds := (sessionFormed_sessionFields h key hexp hsubject).1.holds
  rw [← signed_sessionFields]
  refine ⟨?_, rfl⟩
  have hnot : ∀ f ∈ ascii "v1" :: grantKeyId h key :: intText exp.toInt :: [subject], DOT ∉ f := by
    intro f hf
    refine hholds.dot_notMem f (List.mem_append_left [(sessionFields h key exp subject).tag] hf)
  have hmarks := Fields.length_idxsOf_intercalate hnot (List.cons_ne_nil _ _) 0
  exact Nat.succ.inj hmarks

theorem GrantMessage.shape {h : Hashing} {m : Bytes} (hm : GrantMessage h m) :
    (m.idxsOf DOT).length = 4 ∧ m.head? = some 0x76 := by
  obtain ⟨Clock, host, i, key, exp, text, sb, hsigns, -, rfl⟩ := hm
  refine ⟨?_, rfl⟩
  have hnot : ∀ f ∈ signedFields h key exp text sb, DOT ∉ f := fun f hf =>
    hsigns.dot_notMem f (List.mem_append_left _ hf)
  have hmarks := Fields.length_idxsOf_intercalate hnot (List.cons_ne_nil _ _) 0
  exact Nat.succ.inj hmarks

/-- **The formats are apart**: no message of one is a message of another. -/
theorem formats_apart (h : Hashing) (m : Bytes) :
    ¬(SessionMessage h m ∧ GrantMessage h m) ∧ ¬(SessionMessage h m ∧ CsrfMessage m) ∧
      ¬(GrantMessage h m ∧ CsrfMessage m) := by
  have hcsrf : CsrfMessage m → m.head? ≠ some 0x76 := by
    rintro ⟨tag, rfl⟩ hhead
    cases hhead
  refine ⟨?_, ?_, ?_⟩
  · rintro ⟨hsession, hgrant⟩
    have hthree := hsession.shape.1
    rw [hgrant.shape.1] at hthree
    cases hthree
  · rintro ⟨hsession, htag⟩
    exact hcsrf htag hsession.shape.2
  · rintro ⟨hgrant, htag⟩
    exact hcsrf htag hgrant.shape.2

/-! ## Both formats, as signed -/

/-- The two functions of `sha256.mojo` and `hmac.mojo`. -/
def Hashing.ofSources : Hashing where
  sha256 := MojoHttp.sha256
  hmacSha256 := MojoHttp.hmacSha256
  length_sha256 data := by rw [sha256_eq, Fips180.length_hash]
  length_hmacSha256 key message := by
    rw [MojoHttp.hmacSha256, HmacSha256.mac_new]
    exact Fips180.length_hash _

/-- The digits are those of the number they write, with no zero in front. -/
def TokenFields.Canonical (f : TokenFields) : Prop := f.digits = decimal f.exp

/-- A token has its digits from one reading. -/
theorem digits_unique {f g : TokenFields} (hf : f.Holds) (hg : g.Holds) (h : f.spell = g.spell) : f.digits = g.digits := by
  have hread : ∀ {f : TokenFields}, f.Holds →
      slice f.spell (Fields.start (f.spell.idxsOf DOT) 2) (Fields.stop (f.spell.idxsOf DOT) f.spell.length 2) =
        f.digits := by
    intro f hf
    exact SignedToken.slice_field hf.dot_notMem f.spell_eq (t := ⟨f.spell.idxsOf DOT, f.spell.length, 0, 0, true⟩) rfl
      rfl (k := 2) (by simp [TokenFields.fields])
  rw [← hread hf, ← hread hg, h]

/-- A cookie whose expiry, 7, is spelled with two zeros in front. -/
def paddedFields (h : Hashing) (key : Bytes) : TokenFields :=
  ⟨grantKeyId h key, ascii "007", [ascii "ann"],
    base64url (h.hmacSha256 key (ascii "v1." ++ grantKeyId h key ++ ascii ".007.ann"))⟩

theorem paddedFields_formed (h : Hashing) (key : Bytes) :
    SessionFormed (paddedFields h key).spell (paddedFields h key) (ascii "ann") := by
  refine ⟨rfl, ⟨⟨length_grantKeyId _ _, dot_notMem_grantKeyId _ _⟩, ?_, ?_, ?_, ?_⟩, rfl, ?_⟩
  · show 1 ≤ (ascii "007").length ∧ (ascii "007").length ≤ TOKEN_EXP_DIGITS ∧ ∀ b ∈ ascii "007", ZERO ≤ b ∧ b ≤ NINE
    decide
  · intro m hm
    rw [List.mem_singleton.mp hm]
    decide
  · show (base64url _).length = GRANT_SIG_CHARS
    rw [length_base64url, h.length_hmacSha256]
    rfl
  · exact fun b => isB64urlByte_of_mem_base64url
  · exact ⟨by decide, by decide, by decide⟩

theorem paddedFields_verified (h : Hashing) (key : Bytes) :
    (verifySession (paddedFields h key).spell (KeyRing.of h [key]) 0).ok = true := by
  have hkeys := KeyRing.keys_of h [key]
  have hmem : GrantKey.new h key ∈ (KeyRing.of h [key]).keys := by
    rw [hkeys]
    exact List.mem_cons_self
  obtain ⟨which, hfound, hwhich⟩ := findKey_of_mem hmem (by rw [hkeys]; exact List.nodup_singleton _)
  have hsigned : (paddedFields h key).signed = ascii "v1." ++ grantKeyId h key ++ ascii ".007.ann" := by
    simp [TokenFields.signed, paddedFields, List.intercalate, ascii, DOT]
  have hsame : ¬base64url ((GrantKey.new h key).mac (ascii "v1." ++ grantKeyId h key ++ ascii ".007.ann")) ≠
      (paddedFields h key).tag := not_not.mpr rfl
  have hnow : ¬((paddedFields h key).exp : Int) ≤ Int64.toInt 0 := by
    show ¬((7 : Nat) : Int) ≤ 0
    decide
  rw [verifySession_formed (paddedFields_formed h key),
    show (paddedFields h key).kid = (GrantKey.new h key).kid from rfl, hfound]
  dsimp only
  rw [hwhich, hsigned, if_neg hsame, if_neg hnow]

/-- **The digits of the expiry are not spelled back**: the verifier accepts zeros in front of them. -/
theorem padded_expiry_accepted : ¬∀ (keys : List Bytes) (cookie : Bytes) (now : Int64),
    (verifySession cookie (KeyRing.of Hashing.ofSources keys) now).ok = true →
      ∃ f : TokenFields, cookie = f.spell ∧ f.Holds ∧ f.Canonical := by
  intro hall
  obtain ⟨f, hspell, hf, hcanonical⟩ := hall [ascii "k"] _ 0 (paddedFields_verified Hashing.ofSources (ascii "k"))
  have hdigits : f.digits = ascii "007" := digits_unique hf (paddedFields_formed _ _).holds hspell.symm
  rw [TokenFields.Canonical, TokenFields.exp, hdigits] at hcanonical
  revert hcanonical
  decide

/-- **A session or a grant verifies exactly when it was signed and is in date.** What `issue_session` issues verifies
until its expiry, for its subject, under every ring of distinct ids that holds the issuing key; of any text at all,
each verifier reports the first check that fails, and accepts only fields of the format with their tag, the bytes
in front of the last dot signed under the key the text names; and the three formats sign no message in common. -/
theorem signed_and_in_date (h : Hashing) :
    (∀ (keys : List Bytes) (key subject : Bytes) (exp : Int64) (cookie : Bytes) (ring : KeyRing) (now : Int64),
      issueSession (KeyRing.of h keys) subject exp = .ok cookie → keys.head? = some key →
        GrantKey.new h key ∈ ring.keys → (ring.keys.map GrantKey.kid).Nodup →
          verifySession cookie ring now =
            if now < exp then
              ⟨true, subject, csrfToken (h.hmacSha256 key) (sessionFields h key exp subject).tag, []⟩
            else sessionRefused (ascii "expired")) ∧
    (∀ (cookie : Bytes) (keys : KeyRing) (now : Int64), SessionOutcome cookie keys now (verifySession cookie keys now)) ∧
    (∀ (grant : Bytes) (keys : GrantKeys) (now : Int64) (cookie : Option Bytes),
      GrantOutcome h grant keys now cookie (verifyGrant h grant keys now cookie)) ∧
    ∀ m, ¬(SessionMessage h m ∧ GrantMessage h m) ∧ ¬(SessionMessage h m ∧ CsrfMessage m) ∧
      ¬(GrantMessage h m ∧ CsrfMessage m) := by
  refine ⟨?_, verifySession_outcome, verifyGrant_outcome h, formats_apart h⟩
  intro keys key subject exp cookie ring now hissue hkey hmem hdistinct
  exact issueSession_verified hissue hkey hmem hdistinct now

/-- The cookie issued for `ann` until 7, read at 5. -/
theorem signed_and_in_date_ann :
    (verifySession (sessionFields Hashing.ofSources (ascii "k") 7 (ascii "ann")).spell
      (KeyRing.of Hashing.ofSources [ascii "k"]) 5).subject = ascii "ann" := by
  have hkeys := KeyRing.keys_of Hashing.ofSources [ascii "k"]
  have hissue : issueSession (KeyRing.of Hashing.ofSources [ascii "k"]) (ascii "ann") 7 =
      .ok (sessionFields Hashing.ofSources (ascii "k") 7 (ascii "ann")).spell :=
    issueSession_eq_ok.mpr ⟨ascii "k", rfl, ⟨by decide, by decide⟩, ⟨by decide, by decide, by decide⟩, rfl⟩
  rw [(signed_and_in_date Hashing.ofSources).1 [ascii "k"] (ascii "k") (ascii "ann") 7 _
    (KeyRing.of Hashing.ofSources [ascii "k"]) 5 hissue rfl (by rw [hkeys]; exact List.mem_cons_self)
    (by rw [hkeys]; exact List.nodup_singleton _)]
  rfl

end MojoHttp
