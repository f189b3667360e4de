import MojoHttp.Grant.Token
import MojoHttp.Python.Str

/-!
# The issuer and the verifier of a grant (`grant.py`, `grant.mojo`)

The format is written twice. `issue` joins a grant out of a channel its expression lets through, a key id, an
expiry and a session binding; `verify_grant` reads it byte by byte.

* **`channelReMatches_iff`** — what the expression lets through: a channel of the format, and a channel of the
  format with a newline behind it, which `$` matches in front of.
* **`Issuance.issue_eq_ok`** — what is issued, as the fields it is made of.
* **`Issuance.agrees_iff_readBack`** — the issuer and the verifier agree on every input but two kinds: a channel that ends
  in a newline, and an expiry outside the twelve digits the verifier reads.
-/

namespace MojoHttp

open BytesConstant

/-! ## The issuer -/

/-- A session cookie's value as the caller gives it. -/
inductive Session
  | str (value : Str)
  | bytes (value : Bytes)

/-- What `issue` raises. -/
inductive IssueError
  /-- `GrantError`, naming the channel. -/
  | channel (channel : Str)
  /-- `GrantError`: the variable is not set. -/
  | unset (name : Bytes)
  /-- `UnicodeEncodeError`. -/
  | unencodable
  /-- `int` of what is no finite number, or `str` of more digits than it writes. -/
  | number

/-- What `issue` reads of the interpreter: the clock, the environment, and `int(now + ttl)` of the clock's
numbers, which raises where the sum is no finite one. -/
structure Host (Clock : Type) where
  time : Clock
  environ : Bytes → Option Str
  expires : Clock → Int → Option Int

/-- The arguments of `issue`. -/
structure Issuance (Clock : Type) where
  channel : Str
  session : Option Session
  ttl : Int
  key : Option Bytes
  now : Option Clock

def KEY_ENV : Bytes := ascii "M0_GRANT_KEY"
def KID_CHARS : Nat := 8
def UNBOUND : Str := Str.ofBytes (ascii "-")

/-- The most digits `str` writes of an integer. -/
def INT_MAX_STR_DIGITS : Nat := 4300

def newline : CodePoint := codePoint LF

/-- `[A-Za-z0-9_:-]`. -/
def isChannelChar (c : CodePoint) : Bool :=
  (0x41 ≤ c.val && c.val ≤ 0x5A) || (0x61 ≤ c.val && c.val ≤ 0x7A) || (0x30 ≤ c.val && c.val ≤ 0x39) ||
    c.val == 0x5F || c.val == 0x3A || c.val == 0x2D

/-- `$`: the end of the text, or in front of a newline that ends it. -/
def atDollar (rest : Str) : Bool := rest == [] || rest == [newline]

/-- `CHANNEL_RE.match`: from 1 to 64 of the class, with `$` behind them. -/
def channelReMatches (channel : Str) : Bool :=
  (List.range 64).any fun i =>
    i < channel.length && (channel.take (i + 1)).all isChannelChar && atDollar (channel.drop (i + 1))

/-- `hexdigest`. -/
def hexdigest (digest : Bytes) : Bytes :=
  digest.flatMap fun b => [hexAlphabet.getD (b.toNat / 16) 0, hexAlphabet.getD (b.toNat % 16) 0]

/-- `key_id`. -/
def keyId (h : Hashing) (key : Bytes) : Str := Str.ofBytes ((hexdigest (h.sha256 key)).take KID_CHARS)

/-- `_b64u`: the URL-safe text without the pads at its end. -/
def b64u (raw : Bytes) : Str := Str.ofBytes (((Base64.encode raw).map urlSafe).rdropWhile fun c => c == 0x3D)

/-- `str(exp)`. -/
def strOfInt (exp : Int) : Except IssueError Str :=
  if exp.natAbs < 10 ^ INT_MAX_STR_DIGITS then .ok (Str.ofBytes (intText exp)) else .error .number

/-- The bytes `session_binding` hashes. -/
def Session.encoded : Session → Option Bytes
  | .str value => value.encodeUtf8
  | .bytes value => some value

/-- `session_binding` of the Python side. -/
def sessionBindingOf (h : Hashing) (session : Option Session) : Except IssueError Str :=
  match session with
  | none => .ok UNBOUND
  | some session =>
    match session.encoded with
    | none => .error .unencodable
    | some value => .ok (b64u ((h.sha256 value).take 16))

section Issue

variable {Clock : Type}

/-- `load_key`. -/
def Host.loadKey (host : Host Clock) : Except IssueError Bytes :=
  let value := (host.environ KEY_ENV).getD []
  if value.isEmpty then .error (.unset KEY_ENV)
  else
    match value.encodeUtf8 with
    | none => .error .unencodable
    | some key => .ok key

namespace Issuance

/-- The key `issue` signs with. -/
def signingKey (i : Issuance Clock) (host : Host Clock) : Except IssueError Bytes :=
  match i.key with
  | some key => .ok key
  | none => host.loadKey

/-- `int((time.time() if now is None else now) + ttl)`. -/
def expires (i : Issuance Clock) (host : Host Clock) : Option Int := host.expires (i.now.getD host.time) i.ttl

/-- `".".join((VERSION, key_id(key), str(exp), channel, session_binding(session)))`. -/
def signed (kid exp channel sb : Str) : Str :=
  [codePoint DOT].intercalate [Str.ofBytes (ascii "v1"), kid, exp, channel, sb]

/-- `issue`. -/
def issue (h : Hashing) (host : Host Clock) (i : Issuance Clock) : Except IssueError Str :=
  if !channelReMatches i.channel then .error (.channel i.channel)
  else
    match i.signingKey host with
    | .error raised => .error raised
    | .ok key =>
      match i.expires host with
      | none => .error .number
      | some exp =>
        match strOfInt exp, sessionBindingOf h i.session with
        | .error raised, _ => .error raised
        | .ok _, .error raised => .error raised
        | .ok exp, .ok sb =>
          let signed := signed (keyId h key) exp i.channel sb
          match signed.encodeAscii with
          | none => .error .unencodable
          | some raw => .ok (signed ++ [codePoint DOT] ++ b64u (h.hmacSha256 key raw))

end Issuance

end Issue

/-! ## The two sides' texts -/

theorem hexdigest_eq (digest : Bytes) : hexdigest digest = hexDigest digest := by
  have hpair : ∀ b : UInt8, [hexAlphabet.getD (b.toNat / 16) 0, hexAlphabet.getD (b.toNat % 16) 0] =
      [hexNibble (b.toNat >>> 4), hexNibble (b.toNat &&& 0xF)] :=
    forall_byte (P := fun b => [hexAlphabet.getD (b.toNat / 16) 0, hexAlphabet.getD (b.toNat % 16) 0] =
      [hexNibble (b.toNat >>> 4), hexNibble (b.toNat &&& 0xF)]) (by decide)
  unfold hexdigest hexDigest
  exact congrArg (fun f : UInt8 → Bytes => digest.flatMap f) (funext hpair)

/-- **One key id** on both sides. -/
theorem keyId_eq (h : Hashing) (key : Bytes) : keyId h key = Str.ofBytes (grantKeyId h key) := by
  unfold keyId grantKeyId slice
  rw [hexdigest_eq]
  rfl

/-- **One base64** on both sides: the pads are cut off at the end, or the text is left at the first. -/
theorem b64u_eq (raw : Bytes) : b64u raw = Str.ofBytes (base64url raw) := by
  have hcut : ∀ (text : Bytes) (n : Nat), (∀ c ∈ text, c ≠ 0x3D) →
      (text ++ List.replicate n (0x3D : UInt8)).rdropWhile (fun c => c == 0x3D) = text := by
    intro text n htext
    induction n with
    | zero =>
      rw [List.replicate_zero, List.append_nil, List.rdropWhile_eq_self_iff]
      intro hne hlast
      exact htext _ (List.getLast_mem hne) (beq_iff_eq.mp hlast)
    | succ n ih =>
      rw [List.replicate_succ', ← List.append_assoc, List.rdropWhile_concat_pos _ _ _ (by decide), ih]
  have hsymbol : ∀ c : UInt8, Base64.isSymbol c = true → urlSafe c ≠ 0x3D :=
    forall_byte (P := fun c => Base64.isSymbol c = true → urlSafe c ≠ 0x3D) (by decide)
  unfold b64u Base64.encode Base64.padding
  rw [base64url_eq, List.map_append, List.map_replicate, show urlSafe Base64.pad = 0x3D from rfl, hcut]
  intro c hc
  obtain ⟨x, hx, rfl⟩ := List.mem_map.mp hc
  exact hsymbol x (Base64.isSymbol_of_mem_symbols raw x hx)

/-! ## What the expression lets through -/

theorem isChannelChar_codePoint (b : UInt8) : isChannelChar (codePoint b) = isChannelByte b :=
  forall_byte (P := fun b => isChannelChar (codePoint b) = isChannelByte b) (by decide) b

theorem exists_of_isChannelChar {c : CodePoint} (hc : isChannelChar c = true) : ∃ b, c = codePoint b := by
  refine ⟨UInt8.ofNat c.val, Fin.ext ?_⟩
  show c.val = (UInt8.ofNat c.val).toNat
  have hlt : c.val < 256 := by
    simp only [isChannelChar, Bool.or_eq_true, Bool.and_eq_true, decide_eq_true_eq, beq_iff_eq] at hc
    omega
  rw [UInt8.toNat_ofNat_of_lt' hlt]

theorem exists_of_all_isChannelChar {s : Str} (hs : s.all isChannelChar = true) :
    ∃ text : Bytes, s = Str.ofBytes text ∧ text.all isChannelByte = true := by
  induction s with
  | nil => exact ⟨[], rfl, rfl⟩
  | cons c rest ih =>
    rw [List.all_cons, Bool.and_eq_true] at hs
    obtain ⟨b, rfl⟩ := exists_of_isChannelChar hs.1
    obtain ⟨text, rfl, htext⟩ := ih hs.2
    refine ⟨b :: text, rfl, ?_⟩
    rw [List.all_cons, ← isChannelChar_codePoint, hs.1, htext]
    rfl

theorem channelHolds_iff {channel : Bytes} : channelHolds channel = true ↔
    1 ≤ channel.length ∧ channel.length ≤ 64 ∧ channel.all isChannelByte = true := by
  unfold channelHolds
  rw [Bool.and_eq_true, Bool.not_eq_true', Bool.or_eq_false_iff, decide_eq_false_iff_not, decide_eq_false_iff_not,
    Nat.not_lt, gt_iff_lt, Nat.not_lt, and_assoc]
  rfl

/-- **What the expression lets through**: a channel of the format, or one with a newline behind it. -/
theorem channelReMatches_iff {channel : Str} : channelReMatches channel = true ↔
    ∃ text : Bytes, channelHolds text = true ∧
      (channel = Str.ofBytes text ∨ channel = Str.ofBytes (text ++ [LF])) := by
  unfold channelReMatches
  rw [List.any_eq_true]
  constructor
  · rintro ⟨i, hi, hmatch⟩
    rw [Bool.and_eq_true, Bool.and_eq_true, decide_eq_true_eq] at hmatch
    obtain ⟨⟨hlt, hall⟩, hend⟩ := hmatch
    obtain ⟨text, htext, hbytes⟩ := exists_of_all_isChannelChar hall
    have hlen : text.length = i + 1 := by
      have hlength := congrArg List.length htext
      rw [List.length_take, Str.ofBytes, List.length_map] at hlength
      omega
    have hrange := List.mem_range.mp hi
    refine ⟨text, channelHolds_iff.mpr ⟨by omega, by omega, hbytes⟩, ?_⟩
    rw [Str.ofBytes_append, ← htext]
    have hparts := List.take_append_drop (i + 1) channel
    unfold atDollar at hend
    rcases (Bool.or_eq_true _ _).mp hend with hnil | hnewline
    · left
      rw [beq_iff_eq] at hnil
      rw [hnil, List.append_nil] at hparts
      exact hparts.symm
    · right
      rw [beq_iff_eq] at hnewline
      rw [hnewline] at hparts
      exact hparts.symm
  · rintro ⟨text, hholds, hchannel⟩
    obtain ⟨hone, hmost, hbytes⟩ := channelHolds_iff.mp hholds
    have hall : (Str.ofBytes text).all isChannelChar = true := by
      rw [Str.ofBytes, List.all_map]
      rw [List.all_eq_true] at hbytes ⊢
      intro b hb
      exact (isChannelChar_codePoint b).trans (hbytes b hb)
    have hlength : (Str.ofBytes text).length = text.length - 1 + 1 := by
      rw [Str.ofBytes, List.length_map]
      omega
    refine ⟨text.length - 1, List.mem_range.mpr (by omega), ?_⟩
    rcases hchannel with rfl | rfl
    · rw [← hlength, List.take_length, List.drop_length, hall, decide_eq_true (by omega)]
      rfl
    · rw [Str.ofBytes_append, List.take_left' hlength, List.drop_left' hlength, hall,
        decide_eq_true (by rw [List.length_append]; omega)]
      rfl

/-! ## What is issued -/

/-- The binding of a session, as the verifier works it out of the cookie; `none` where the value has no encoding. -/
def bindingText (h : Hashing) : Option Session → Option Bytes
  | none => some (ascii "-")
  | some session => session.encoded.map (sessionBinding h)

theorem sessionBindingOf_eq_ok {h : Hashing} {session : Option Session} {sb : Str} :
    sessionBindingOf h session = .ok sb ↔ ∃ text, bindingText h session = some text ∧ sb = Str.ofBytes text := by
  unfold sessionBindingOf bindingText
  cases session with
  | none =>
    constructor
    · rintro ⟨⟩
      exact ⟨_, rfl, rfl⟩
    · rintro ⟨text, ⟨⟩, rfl⟩
      rfl
  | some session =>
    dsimp only
    cases session.encoded with
    | none => simp
    | some value =>
      have hbinding : b64u ((h.sha256 value).take 16) = Str.ofBytes (sessionBinding h value) := b64u_eq _
      simp only [Except.ok.injEq, Option.map_some, Option.some.injEq, exists_eq_left', hbinding]
      exact eq_comm

/-- A binding has no dot and is ASCII. -/
theorem bindingText_bytes {h : Hashing} {session : Option Session} {text : Bytes} (htext : bindingText h session = some text) :
    ∀ b ∈ text, isB64urlByte b = true := by
  cases session with
  | none =>
    cases htext
    decide
  | some session =>
    obtain ⟨value, -, rfl⟩ := Option.map_eq_some_iff.mp htext
    exact fun b => isB64urlByte_of_mem_base64url

/-- What is signed: all fields but the tag. -/
def signedFields (h : Hashing) (key : Bytes) (exp : Int) (channel sb : Bytes) : List Bytes :=
  [ascii "v1", grantKeyId h key, intText exp, channel, sb]

def signedText (h : Hashing) (key : Bytes) (exp : Int) (channel sb : Bytes) : Bytes :=
  [DOT].intercalate (signedFields h key exp channel sb)

/-- The grant. -/
def grantText (h : Hashing) (key : Bytes) (exp : Int) (channel sb : Bytes) : Bytes :=
  signedText h key exp channel sb ++ DOT :: base64url (h.hmacSha256 key (signedText h key exp channel sb))

theorem intText_bytes (exp : Int) : ∀ b ∈ intText exp, b = 0x2D ∨ ZERO ≤ b ∧ b ≤ NINE := by
  intro b hb
  unfold intText at hb
  split at hb
  · rcases List.mem_cons.mp hb with rfl | hb
    · exact Or.inl rfl
    · exact Or.inr (decimal_digits _ b hb)
  · exact Or.inr (decimal_digits _ b hb)

/-- All of a grant is ASCII. -/
theorem grantText_ascii {h : Hashing} {key : Bytes} {exp : Int} {channel sb : Bytes}
    (hchannel : ∀ b ∈ channel, b < 0x80) (hsb : ∀ b ∈ sb, isB64urlByte b = true) :
    (∀ b ∈ signedText h key exp channel sb, b < 0x80) ∧ ∀ b ∈ grantText h key exp channel sb, b < 0x80 := by
  have hb64 : ∀ b : UInt8, isB64urlByte b = true → b < 0x80 :=
    forall_byte (P := fun b => isB64urlByte b = true → b < 0x80) (by decide)
  have hnumber : ∀ b : UInt8, b = 0x2D ∨ ZERO ≤ b ∧ b ≤ NINE → b < 0x80 :=
    forall_byte (P := fun b => b = 0x2D ∨ ZERO ≤ b ∧ b ≤ NINE → b < 0x80) (by decide)
  have hdot : DOT < 0x80 := by decide
  have hfields : ∀ f ∈ signedFields h key exp channel sb, ∀ b ∈ f, b < 0x80 := by
    unfold signedFields
    simp only [List.forall_mem_cons, List.not_mem_nil, false_implies, implies_true, and_true]
    exact ⟨by decide, fun b hb => hexDigest_lt _ b (List.mem_of_mem_drop (List.mem_of_mem_take hb)),
      fun b hb => hnumber b (intText_bytes exp b hb), hchannel, fun b hb => hb64 b (hsb b hb)⟩
  have hsigned : ∀ b ∈ signedText h key exp channel sb, b < 0x80 := by
    have hjoin : ∀ fields : List Bytes, (∀ f ∈ fields, ∀ b ∈ f, b < 0x80) →
        ∀ b ∈ [DOT].intercalate fields, b < 0x80 := by
      intro fields hall
      induction fields with
      | nil => simp
      | cons field fields ih =>
        cases fields with
        | nil =>
          rw [List.intercalate_singleton]
          exact hall field List.mem_cons_self
        | cons next fields =>
          rw [List.intercalate_cons_cons, List.append_assoc]
          intro b hb
          rcases List.mem_append.mp hb with hb | hb
          · exact hall field List.mem_cons_self b hb
          rcases List.mem_append.mp hb with hb | hb
          · exact List.mem_singleton.mp hb ▸ hdot
          · exact ih (fun f hf => hall f (List.mem_cons_of_mem _ hf)) b hb
    exact hjoin _ hfields
  refine ⟨hsigned, fun b hb => ?_⟩
  rcases List.mem_append.mp hb with hb | hb
  · exact hsigned b hb
  rcases List.mem_cons.mp hb with rfl | hb
  · exact hdot
  · exact hb64 b (isB64urlByte_of_mem_base64url hb)

namespace Issuance

variable {Clock : Type} {h : Hashing} {host : Host Clock} {i : Issuance Clock}

/-- The inputs a grant is issued for, with the fields that go into it. -/
structure Signs (h : Hashing) (host : Host Clock) (i : Issuance Clock) (key : Bytes) (exp : Int)
    (text sb : Bytes) : Prop where
  lets : channelReMatches i.channel = true
  channel : i.channel = Str.ofBytes text
  signs : i.signingKey host = .ok key
  expires : i.expires host = some exp
  digits : exp.natAbs < 10 ^ INT_MAX_STR_DIGITS
  binding : bindingText h i.session = some sb

theorem Signs.text_ascii {key : Bytes} {exp : Int} {text sb : Bytes} (hsigns : Signs h host i key exp text sb) :
    ∀ b ∈ text, b < 0x80 := by
  have hbyte : ∀ b : UInt8, isChannelByte b = true → b < 0x80 :=
    forall_byte (P := fun b => isChannelByte b = true → b < 0x80) (by decide)
  obtain ⟨channel, hholds, hchannel⟩ := channelReMatches_iff.mp hsigns.lets
  have hall : ∀ b ∈ channel, b < 0x80 := fun b hb =>
    hbyte b (List.all_eq_true.mp (channelHolds_iff.mp hholds).2.2 b hb)
  rw [hsigns.channel] at hchannel
  rcases hchannel with heq | heq
  · rwa [Str.ofBytes_injective heq]
  · rw [Str.ofBytes_injective heq]
    intro b hb
    rcases List.mem_append.mp hb with hb | hb
    · exact hall b hb
    · rw [List.mem_singleton.mp hb]
      decide

/-- The text that is signed, as the bytes that are hashed. -/
theorem signed_eq (key : Bytes) (exp : Int) (text sb : Bytes) :
    signed (keyId h key) (Str.ofBytes (intText exp)) (Str.ofBytes text) (Str.ofBytes sb) =
      Str.ofBytes (signedText h key exp text sb) := by
  rw [keyId_eq]
  simp [signed, signedText, signedFields, Str.ofBytes, List.intercalate]

/-- **What is issued**: the fields, joined, and the tag over them. -/
theorem issue_eq_ok {token : Str} : i.issue h host = .ok token ↔
    ∃ key exp text sb, Signs h host i key exp text sb ∧ token = Str.ofBytes (grantText h key exp text sb) := by
  have hjoined : ∀ {key exp text sb}, Signs h host i key exp text sb →
      i.issue h host = .ok (Str.ofBytes (grantText h key exp text sb)) := by
    intro key exp text sb hsigns
    have hraw : (Str.ofBytes (signedText h key exp text sb)).encodeAscii = some (signedText h key exp text sb) :=
      Str.encodeAscii_ofBytes (grantText_ascii hsigns.text_ascii (bindingText_bytes hsigns.binding)).1
    unfold issue strOfInt
    rw [hsigns.lets, Bool.not_true, if_neg Bool.false_ne_true, hsigns.signs, hsigns.expires]
    dsimp only
    rw [if_pos hsigns.digits, sessionBindingOf_eq_ok.mpr ⟨sb, hsigns.binding, rfl⟩, hsigns.channel]
    dsimp only
    rw [signed_eq, hraw]
    dsimp only
    rw [b64u_eq]
    simp [grantText, Str.ofBytes]
  constructor
  · intro hissue
    have hkeep := hissue
    unfold issue at hissue
    cases hmatch : channelReMatches i.channel with
    | false =>
      rw [hmatch] at hissue
      cases hissue
    | true =>
      rw [hmatch, Bool.not_true, if_neg Bool.false_ne_true] at hissue
      cases hkey : i.signingKey host with
      | error raised =>
        rw [hkey] at hissue
        cases hissue
      | ok key =>
        rw [hkey] at hissue
        cases hexp : i.expires host with
        | none =>
          rw [hexp] at hissue
          cases hissue
        | some exp =>
          rw [hexp] at hissue
          dsimp only at hissue
          unfold strOfInt at hissue
          by_cases hdigits : exp.natAbs < 10 ^ INT_MAX_STR_DIGITS
          · rw [if_pos hdigits] at hissue
            cases hsb : sessionBindingOf h i.session with
            | error raised =>
              rw [hsb] at hissue
              cases hissue
            | ok sb =>
              obtain ⟨binding, hbinding, rfl⟩ := sessionBindingOf_eq_ok.mp hsb
              obtain ⟨channel, -, hchannel⟩ := channelReMatches_iff.mp hmatch
              have htext : ∃ text, i.channel = Str.ofBytes text := by
                rcases hchannel with heq | heq
                · exact ⟨_, heq⟩
                · exact ⟨_, heq⟩
              obtain ⟨text, htext⟩ := htext
              have hsigns : Signs h host i key exp text binding := ⟨hmatch, htext, hkey, hexp, hdigits, hbinding⟩
              rw [hjoined hsigns, Except.ok.injEq] at hkeep
              exact ⟨key, exp, text, binding, hsigns, hkeep.symm⟩
          · rw [if_neg hdigits] at hissue
            cases hissue
  · rintro ⟨key, exp, text, sb, hsigns, rfl⟩
    exact hjoined hsigns

/-! ## The verifier on what is issued -/

/-- The fields of a grant. -/
def grantFields (h : Hashing) (key : Bytes) (exp : Int) (text sb : Bytes) : List Bytes :=
  signedFields h key exp text sb ++ [base64url (h.hmacSha256 key (signedText h key exp text sb))]

theorem grantText_eq (key : Bytes) (exp : Int) (text sb : Bytes) :
    grantText h key exp text sb = [DOT].intercalate (grantFields h key exp text sb) := by
  simp [grantText, grantFields, signedText, signedFields, List.intercalate]

theorem Signs.dot_notMem {key : Bytes} {exp : Int} {text sb : Bytes} (hsigns : Signs h host i key exp text sb) :
    ∀ f ∈ grantFields h key exp text sb, DOT ∉ f := by
  have hchannel : DOT ∉ text := by
    intro hdot
    obtain ⟨channel, hholds, heq⟩ := channelReMatches_iff.mp hsigns.lets
    have hnot : DOT ∉ channel := fun hin =>
      absurd (List.all_eq_true.mp (channelHolds_iff.mp hholds).2.2 DOT hin) (by decide)
    rw [hsigns.channel] at heq
    rcases heq with heq | heq
    · exact hnot (Str.ofBytes_injective heq ▸ hdot)
    · rw [Str.ofBytes_injective heq] at hdot
      rcases List.mem_append.mp hdot with hin | hin
      · exact hnot hin
      · exact absurd (List.mem_singleton.mp hin) (by decide)
  have hnumber : DOT ∉ intText exp := fun hdot => absurd (intText_bytes exp DOT hdot) (by decide)
  have hbinding : DOT ∉ sb := fun hdot => absurd (bindingText_bytes hsigns.binding DOT hdot) (by decide)
  unfold grantFields signedFields
  simp only [List.cons_append, List.nil_append, List.forall_mem_cons, List.not_mem_nil, false_implies, implies_true,
    and_true]
  exact ⟨by decide, dot_notMem_grantKeyId h key, hnumber, hchannel, hbinding, dot_notMem_base64url _⟩

/-- The envelope of a grant holds where the expiry has from one to twelve digits and no sign. -/
theorem envelopeHolds_iff {key : Bytes} {exp : Int} {text sb : Bytes} :
    (∃ read, EnvelopeHolds (grantFields h key exp text sb) read) ↔ 0 ≤ exp ∧ exp < 10 ^ TOKEN_EXP_DIGITS := by
  constructor
  · rintro ⟨read, hholds⟩
    have hdigits : (intText exp).length ≤ TOKEN_EXP_DIGITS := hholds.digits.2
    have hread : expOf (intText exp) 0 = some read := hholds.exp
    rcases Int.lt_or_le exp 0 with hneg | hpos
    · rw [expOf_intText_neg hneg] at hread
      cases hread
    · unfold intText at hdigits
      rw [if_neg (by omega), length_decimal_le (by decide)] at hdigits
      refine ⟨hpos, ?_⟩
      have hcast : ((exp.natAbs : Nat) : Int) < ((10 ^ TOKEN_EXP_DIGITS : Nat) : Int) := Int.ofNat_lt.mpr hdigits
      rw [Int.natAbs_of_nonneg hpos] at hcast
      exact_mod_cast hcast
  · rintro ⟨hpos, hlt⟩
    have htext : intText exp = decimal exp.natAbs := if_neg (by omega)
    have hbound : exp.natAbs < 10 ^ TOKEN_EXP_DIGITS := by
      zify
      rwa [abs_of_nonneg hpos]
    refine ⟨exp, rfl, length_grantKeyId h key, ?_, ?_, ?_, fun b => isB64urlByte_of_mem_base64url⟩
    · show 1 ≤ (intText exp).length ∧ (intText exp).length ≤ TOKEN_EXP_DIGITS
      rw [htext]
      exact ⟨List.length_pos_iff.mpr (decimal_ne_nil _), (length_decimal_le (by decide)).mpr hbound⟩
    · show expOf (intText exp) 0 = some exp
      rw [htext, expOf_decimal, Int.natAbs_of_nonneg hpos]
    · show (base64url _).length = GRANT_SIG_CHARS
      rw [length_base64url, h.length_hmacSha256]
      rfl

/-- The client presents the session's value, where the grant is bound to one. -/
def Presents (i : Issuance Clock) (cookie : Option Bytes) : Prop :=
  ∀ session, i.session = some session → cookie = session.encoded

/-- **A grant opens its stream**: every ring that holds the key, at every clock before the expiry, accepts it with
the channel it was issued for. -/
def Opens (h : Hashing) (host : Host Clock) (i : Issuance Clock) (token : Str) : Prop :=
  ∀ key exp, i.signingKey host = .ok key → i.expires host = some exp →
    ∀ keys : GrantKeys, GrantKey.new h key ∈ keys.ring.keys → (keys.ring.keys.map GrantKey.kid).Nodup →
      ∀ now : Int64, now.toInt < exp → ∀ cookie, i.Presents cookie →
        ∃ grant channel, token.encodeUtf8 = some grant ∧ i.channel = Str.ofBytes channel ∧
          verifyGrant h grant keys now cookie = ⟨true, channel, []⟩

/-- A channel the verifier calls malformed. -/
def MalformedChannel (channel : Str) : Prop := ∀ text, channel.encodeUtf8 = some text → channelHolds text = false

/-- The issuer and the verifier agree on these inputs. -/
def Agrees (h : Hashing) (host : Host Clock) (i : Issuance Clock) : Prop :=
  (∀ token, i.issue h host = .ok token → i.Opens h host token) ∧
    (MalformedChannel i.channel → ∀ token, i.issue h host ≠ .ok token)

/-- The inputs something is issued for. -/
structure Issuable (host : Host Clock) (i : Issuance Clock) : Prop where
  lets : channelReMatches i.channel = true
  signs : ∃ key, i.signingKey host = .ok key
  expires : ∃ exp, i.expires host = some exp ∧ exp.natAbs < 10 ^ INT_MAX_STR_DIGITS
  encoded : ∀ session, i.session = some session → ∃ value, session.encoded = some value

/-- The channel does not end in a newline, and the expiry is one the verifier reads, or one that no clock is before. -/
def ReadBack (host : Host Clock) (i : Issuance Clock) : Prop :=
  i.channel.getLast? ≠ some newline ∧
    ∀ exp, i.expires host = some exp → (0 ≤ exp ∧ exp < 10 ^ TOKEN_EXP_DIGITS) ∨ exp ≤ Int64.minValue.toInt

theorem exists_signs_iff : (∃ key exp text sb, Signs h host i key exp text sb) ↔ Issuable host i := by
  constructor
  · rintro ⟨key, exp, text, sb, hsigns⟩
    refine ⟨hsigns.lets, ⟨key, hsigns.signs⟩, ⟨exp, hsigns.expires, hsigns.digits⟩, fun session hsession => ?_⟩
    have hbinding := hsigns.binding
    rw [hsession] at hbinding
    obtain ⟨value, hvalue, -⟩ := Option.map_eq_some_iff.mp hbinding
    exact ⟨value, hvalue⟩
  · rintro ⟨hlets, ⟨key, hkey⟩, ⟨exp, hexp, hdigits⟩, hencoded⟩
    obtain ⟨channel, -, hchannel⟩ := channelReMatches_iff.mp hlets
    have hbinding : ∃ sb, bindingText h i.session = some sb := by
      cases hsession : i.session with
      | none => exact ⟨_, rfl⟩
      | some session =>
        obtain ⟨value, hvalue⟩ := hencoded session hsession
        exact ⟨_, by rw [bindingText, hvalue]; rfl⟩
    obtain ⟨sb, hsb⟩ := hbinding
    rcases hchannel with heq | heq
    · exact ⟨key, exp, _, sb, hlets, heq, hkey, hexp, hdigits, hsb⟩
    · exact ⟨key, exp, _, sb, hlets, heq, hkey, hexp, hdigits, hsb⟩

/-- What was let through with no newline at its end is a channel of the format. -/
theorem Signs.channelHolds {key : Bytes} {exp : Int} {text sb : Bytes} (hsigns : Signs h host i key exp text sb) :
    MojoHttp.channelHolds text = true ↔ i.channel.getLast? ≠ some newline := by
  obtain ⟨channel, hholds, heq⟩ := channelReMatches_iff.mp hsigns.lets
  have hlf : MojoHttp.channelHolds (channel ++ [LF]) = false := by
    rw [Bool.eq_false_iff]
    intro hholds
    have hbyte := List.all_eq_true.mp (channelHolds_iff.mp hholds).2.2 LF (by simp)
    revert hbyte
    decide
  rcases heq with heq | heq
  · have htext := Str.ofBytes_injective (hsigns.channel.symm.trans heq)
    refine iff_of_true (htext ▸ hholds) ?_
    rw [heq, Str.ofBytes, List.getLast?_map]
    intro hlast
    obtain ⟨b, hb, hnewline⟩ := Option.map_eq_some_iff.mp hlast
    have hin := List.mem_of_getLast? hb
    rw [Str.codePoint_injective hnewline] at hin
    have hbyte := List.all_eq_true.mp (channelHolds_iff.mp hholds).2.2 LF hin
    revert hbyte
    decide
  · have htext := Str.ofBytes_injective (hsigns.channel.symm.trans heq)
    refine iff_of_false (by rw [htext, hlf]; exact Bool.false_ne_true) (not_not.mpr ?_)
    rw [heq, Str.ofBytes_append, List.getLast?_append]
    rfl

/-- **A grant that reads back** is accepted. -/
theorem Signs.opens {key : Bytes} {exp : Int} {text sb : Bytes} (hsigns : Signs h host i key exp text sb)
    (hread : ReadBack host i) : i.Opens h host (Str.ofBytes (grantText h key exp text sb)) := by
  intro key' exp' hkey hexp keys hmem hdistinct now hnow cookie hcookie
  rw [hsigns.signs, Except.ok.injEq] at hkey
  rw [hsigns.expires, Option.some.injEq] at hexp
  subst hkey hexp
  have hexp : 0 ≤ exp ∧ exp < 10 ^ TOKEN_EXP_DIGITS := by
    -- no clock is before the least there is
    have hleast := Int64.minValue_le_toInt now
    rcases hread.2 exp hsigns.expires with hin | hout
    · exact hin
    · omega
  have hchannel := hsigns.channelHolds.mpr hread.1
  obtain ⟨-, hmost, -⟩ := channelHolds_iff.mp hchannel
  obtain ⟨read, hholds⟩ : ∃ read, EnvelopeHolds (grantFields h key exp text sb) read :=
    envelopeHolds_iff.mpr hexp
  have hreadExp : read = exp := by
    have hdecimal : expOf (intText exp) 0 = some read := hholds.exp
    unfold intText at hdecimal
    rw [if_neg (by omega), expOf_decimal, Option.some.injEq, Int.natAbs_of_nonneg hexp.1] at hdecimal
    exact hdecimal.symm
  subst hreadExp
  have hdigits : (intText read).length ≤ TOKEN_EXP_DIGITS := hholds.digits.2
  have hsbLength : sb.length ≤ GRANT_SB_CHARS := by
    have hbinding := hsigns.binding
    cases hsession : i.session with
    | none =>
      rw [hsession] at hbinding
      cases hbinding
      decide
    | some session =>
      rw [hsession] at hbinding
      obtain ⟨value, -, rfl⟩ := Option.map_eq_some_iff.mp hbinding
      unfold sessionBinding
      rw [length_base64url, length_slice, h.length_sha256]
      decide
  have hlength : (grantText h key read text sb).length =
      2 + 1 + (8 + (1 + ((intText read).length + (1 + (text.length + (1 + sb.length)))))) + (1 + 43) := by
    unfold grantText signedText signedFields
    rw [List.length_append, List.length_cons, length_base64url, h.length_hmacSha256]
    simp only [List.intercalate_cons_cons, List.intercalate_singleton, List.length_append, length_grantKeyId,
      List.length_cons, List.length_nil]
    rw [show (ascii "v1").length = 2 from rfl, show GRANT_KID_CHARS = 8 from rfl]
    omega
  refine ⟨_, text, Str.encodeUtf8_ofBytes (grantText_ascii hsigns.text_ascii (bindingText_bytes hsigns.binding)).2,
    hsigns.channel, ?_⟩
  refine verifyGrant_eq hsigns.dot_notMem rfl (grantText_eq key read text sb) ?_ ?_ hholds hmem hdistinct rfl rfl
    rfl hnow hchannel ?_
  · omega
  · have hroom : TOKEN_EXP_DIGITS = 12 ∧ GRANT_SB_CHARS = 22 ∧ TOKEN_MAX = 400 := ⟨rfl, rfl, rfl⟩
    omega
  · show sb = ascii "-" ∨ _
    have hbinding := hsigns.binding
    cases hsession : i.session with
    | none =>
      rw [hsession] at hbinding
      cases hbinding
      exact Or.inl rfl
    | some session =>
      rw [hsession] at hbinding
      obtain ⟨value, hvalue, rfl⟩ := Option.map_eq_some_iff.mp hbinding
      exact Or.inr ⟨value, (hcookie session hsession).trans hvalue, rfl⟩

/-- A channel that ends in a newline is let through although the verifier calls it malformed. -/
theorem Signs.malformed {key : Bytes} {exp : Int} {text sb : Bytes} (hsigns : Signs h host i key exp text sb)
    (hnewline : i.channel.getLast? = some newline) : MalformedChannel i.channel := by
  intro bytes hbytes
  rw [hsigns.channel, Str.encodeUtf8_ofBytes hsigns.text_ascii, Option.some.injEq] at hbytes
  rw [← hbytes, Bool.eq_false_iff]
  exact fun hholds => hsigns.channelHolds.mp hholds hnewline

/-- Where the two sides agree, what is issued reads back. -/
theorem Signs.readBack {key : Bytes} {exp : Int} {text sb : Bytes} (hsigns : Signs h host i key exp text sb)
    (hagrees : i.Agrees h host) : ReadBack host i := by
  have hissue := issue_eq_ok.mpr ⟨key, exp, text, sb, hsigns, rfl⟩
  refine ⟨fun hnewline => hagrees.2 (hsigns.malformed hnewline) _ hissue, fun exp' hexp' => ?_⟩
  rw [hsigns.expires, Option.some.injEq] at hexp'
  subst hexp'
  by_contra hout
  rw [not_or] at hout
  -- the ring of the key alone, at the least clock, with the session's own cookie
  have hbefore : Int64.minValue.toInt < exp := by omega
  obtain ⟨grant, channel, hgrant, -, hverdict⟩ := hagrees.1 _ hissue key exp hsigns.signs hsigns.expires
    ⟨⟨[GrantKey.new h key]⟩, []⟩ List.mem_cons_self (List.nodup_singleton _) Int64.minValue hbefore
    (i.session.bind Session.encoded) (fun session hsession => by rw [hsession]; rfl)
  rw [Str.encodeUtf8_ofBytes (grantText_ascii hsigns.text_ascii (bindingText_bytes hsigns.binding)).2,
    Option.some.injEq] at hgrant
  have hholds := holds_of_verifyGrant hsigns.dot_notMem rfl (hgrant ▸ grantText_eq key exp text sb)
    (h := h) (by rw [hverdict])
  exact hout.1 (envelopeHolds_iff.mp hholds)

/-- **The issuer and the verifier agree** exactly where nothing is issued, or the channel does not end in a newline
and the expiry has no more than the twelve digits the verifier reads and no sign. -/
theorem agrees_iff_readBack (h : Hashing) (host : Host Clock) (i : Issuance Clock) :
    i.Agrees h host ↔ (Issuable host i → ReadBack host i) := by
  constructor
  · intro hagrees hissuable
    obtain ⟨key, exp, text, sb, hsigns⟩ := (exists_signs_iff (h := h)).mpr hissuable
    exact hsigns.readBack hagrees
  · intro hread
    refine ⟨fun token hissue => ?_, fun hmalformed token hissue => ?_⟩
    · obtain ⟨key, exp, text, sb, hsigns, rfl⟩ := issue_eq_ok.mp hissue
      exact hsigns.opens (hread (exists_signs_iff.mp ⟨key, exp, text, sb, hsigns⟩))
    · obtain ⟨key, exp, text, sb, hsigns, rfl⟩ := issue_eq_ok.mp hissue
      have hback := hread (exists_signs_iff.mp ⟨key, exp, text, sb, hsigns⟩)
      have hnot := hmalformed text (by rw [hsigns.channel, Str.encodeUtf8_ofBytes hsigns.text_ascii])
      rw [hsigns.channelHolds.mpr hback.1] at hnot
      cases hnot

/-- A clock that counts in whole seconds, and an empty environment. -/
def wholeSeconds : Host Int := ⟨1_800_000_000, fun _ => none, fun now ttl => some (now + ttl)⟩

/-- A grant for `news` with a newline behind it. -/
def newsLine : Issuance Int := ⟨Str.ofBytes (ascii "news\n"), none, 3600, some (ascii "key"), none⟩

/-- The expression lets the newline through, whatever the hash. -/
theorem newsLine_not_agrees : ¬ ∃ h : Hashing, newsLine.Agrees h wholeSeconds := by
  rintro ⟨h, hagrees⟩
  have hissuable : Issuable wholeSeconds newsLine :=
    ⟨by decide, ⟨_, rfl⟩, ⟨1_800_003_600, rfl, Nat.lt_of_lt_of_le (show _ < 10 ^ 10 by decide)
      (Nat.pow_le_pow_right (by decide) (by decide))⟩, fun _ hsession => nomatch hsession⟩
  obtain ⟨key, exp, text, sb, hsigns⟩ := (exists_signs_iff (h := h)).mpr hissuable
  exact (hsigns.readBack hagrees).1 rfl

end Issuance

end MojoHttp
