import MojoHttp.Bytes
import MojoHttp.Hex
import MojoHttp.Lib.Base64
import MojoHttp.Lib.Fields

/-!
# Signed tokens and the grants they carry (`grant.mojo`)

What the Mojo side reads of `v1.<kid>.<exp>.<channel>.<sb>.<sig>`.

* **`Hashing`** — SHA-256 and HMAC-SHA-256, as both sides call them.
* **`SignedToken`** — the envelope read: where its dots are, the expiry, whether it holds.
* **`SignedToken.wellFormed_iff`** — of a token made of its fields, the envelope holds exactly when each of
  them passes its check.
* **`verifyGrant`** — the refusals, in their order.
-/

namespace MojoHttp

open BytesConstant

/-- SHA-256, and HMAC-SHA-256 of a key and a message. -/
structure Hashing where
  sha256 : Bytes → Bytes
  hmacSha256 : Bytes → Bytes → Bytes
  length_sha256 : ∀ data, (sha256 data).length = 32
  length_hmacSha256 : ∀ key message, (hmacSha256 key message).length = 32

def GRANT_KID_CHARS : Nat := 8
def GRANT_CHANNEL_MAX : Nat := 64
def GRANT_SIG_CHARS : Nat := 43
def GRANT_SB_CHARS : Nat := 22
def TOKEN_EXP_DIGITS : Nat := 12
def TOKEN_MAX : Nat := 400

/-- The loop of `base64url` over the encoder's text, which it leaves at the first pad. -/
def base64urlFrom : Bytes → Bytes
  | [] => []
  | ch :: rest =>
    if ch == 0x2B then 0x2D :: base64urlFrom rest
    else if ch == 0x2F then 0x5F :: base64urlFrom rest
    else if ch == 0x3D then []
    else ch :: base64urlFrom rest

/-- `base64url`. -/
def base64url (data : Bytes) : Bytes := base64urlFrom (Base64.encode data)

/-- `grant_key_id`. -/
def grantKeyId (h : Hashing) (key : Bytes) : Bytes := slice (hexDigest (h.sha256 key)) 0 GRANT_KID_CHARS

/-- `session_binding`. -/
def sessionBinding (h : Hashing) (cookieValue : Bytes) : Bytes := base64url (slice (h.sha256 cookieValue) 0 16)

/-- `constant_time_equal`: every difference is OR-ed into `acc`. -/
def constantTimeEqual (a b : Bytes) : Bool :=
  if a.length != b.length then false
  else (List.zipWith (fun x y => x ^^^ y) a b).foldl (fun acc d => acc ||| d) 0 == 0

theorem length_grantKeyId (h : Hashing) (key : Bytes) : (grantKeyId h key).length = GRANT_KID_CHARS := by
  unfold grantKeyId
  rw [length_slice, length_hexDigest, h.length_sha256]
  rfl

theorem dot_notMem_grantKeyId (h : Hashing) (key : Bytes) : DOT ∉ grantKeyId h key :=
  fun hdot => dot_notMem_hexDigest _ (List.mem_of_mem_drop (List.mem_of_mem_take hdot))

/-- The URL-safe symbol in place of one. -/
def urlSafe (ch : UInt8) : UInt8 := if ch == 0x2B then 0x2D else if ch == 0x2F then 0x5F else ch

/-- `base64url` leaves the padding out and nothing else. -/
theorem base64url_eq (data : Bytes) : base64url data = (Base64.symbols data).map urlSafe := by
  have hloop : ∀ (text padding : Bytes), (∀ c ∈ text, Base64.isSymbol c = true) →
      (∀ c ∈ padding, c = Base64.pad) → base64urlFrom (text ++ padding) = text.map urlSafe := by
    intro text padding htext hpadding
    induction text with
    | nil =>
      cases padding with
      | nil => rfl
      | cons c rest =>
        rw [hpadding c List.mem_cons_self]
        rfl
    | cons c text ih =>
      have hsymbol := htext c List.mem_cons_self
      have hnot : (c == 0x3D) = false := by
        rw [beq_eq_false_iff_ne]
        rintro rfl
        cases hsymbol
      specialize ih fun x hx => htext x (List.mem_cons_of_mem _ hx)
      rw [List.cons_append, List.map_cons]
      unfold base64urlFrom urlSafe
      rw [ih, hnot]
      cases hplus : c == 0x2B with
      | true => rfl
      | false =>
        cases hslash : c == 0x2F with
        | true => rfl
        | false => rfl
  unfold base64url Base64.encode
  exact hloop _ _ (Base64.isSymbol_of_mem_symbols data) fun c hc => List.eq_of_mem_replicate hc

theorem length_base64url (data : Bytes) : (base64url data).length = (4 * data.length + 2) / 3 := by
  rw [base64url_eq, List.length_map, Base64.length_symbols]

/-- `constant_time_equal` compares. -/
theorem constantTimeEqual_iff {a b : Bytes} : constantTimeEqual a b = true ↔ a = b := by
  have hfold : ∀ (ds : Bytes) (acc : UInt8),
      ds.foldl (fun acc d => acc ||| d) acc = 0 ↔ acc = 0 ∧ ∀ d ∈ ds, d = 0 := by
    intro ds
    induction ds with
    | nil => simp
    | cons d ds ih =>
      intro acc
      rw [List.foldl_cons, ih, UInt8.or_eq_zero_iff, List.forall_mem_cons, and_assoc]
  have hzip : ∀ a b : Bytes, a.length = b.length →
      ((∀ d ∈ List.zipWith (fun x y => x ^^^ y) a b, d = 0) ↔ a = b) := by
    intro a
    induction a with
    | nil =>
      intro b hlen
      rw [List.length_eq_zero_iff.mp hlen.symm]
      simp
    | cons x a ih =>
      intro b hlen
      cases b with
      | nil => cases hlen
      | cons y b =>
        rw [List.zipWith_cons_cons, List.forall_mem_cons, ih b (Nat.succ.inj hlen), UInt8.xor_eq_zero_iff,
          List.cons.injEq]
  unfold constantTimeEqual
  cases hlen : a.length != b.length with
  | true =>
    rw [if_pos rfl]
    refine iff_of_false Bool.false_ne_true ?_
    rintro rfl
    simp at hlen
  | false =>
    rw [if_neg Bool.false_ne_true, beq_iff_eq, hfold]
    exact (and_iff_right rfl).trans (hzip a b (by simpa using hlen))

/-- `GrantKey`; `mac` is what its `HmacSha256` computes. -/
structure GrantKey where
  kid : Bytes
  mac : Bytes → Bytes
  deriving Inhabited

def GrantKey.new (h : Hashing) (key : Bytes) : GrantKey := ⟨grantKeyId h key, h.hmacSha256 key⟩

/-- `find_key`; `none` is -1. -/
def findKey (keys : List GrantKey) (kid : Bytes) : Option Nat := keys.findIdx? fun key => key.kid == kid

/-- A key of the ring is found by its id where no other key has that id. -/
theorem findKey_of_mem {keys : List GrantKey} {key : GrantKey} (hmem : key ∈ keys)
    (hdistinct : (keys.map GrantKey.kid).Nodup) :
    ∃ which, findKey keys key.kid = some which ∧ keys.getD which default = key := by
  induction keys with
  | nil => cases hmem
  | cons first keys ih =>
    rw [List.map_cons, List.nodup_cons] at hdistinct
    unfold findKey at ih ⊢
    rw [List.findIdx?_cons]
    rcases List.mem_cons.mp hmem with rfl | hmem
    · exact ⟨0, by rw [beq_self_eq_true, if_pos rfl], rfl⟩
    · have hnot : (first.kid == key.kid) = false := by
        rw [beq_eq_false_iff_ne]
        intro heq
        exact hdistinct.1 (heq ▸ List.mem_map_of_mem hmem)
      obtain ⟨which, hfound, hkey⟩ := ih hmem hdistinct.2
      exact ⟨which + 1, by rw [hnot, if_neg Bool.false_ne_true, hfound]; rfl, hkey⟩

/-- `KeyRing`. -/
structure KeyRing where
  keys : List GrantKey

def KeyRing.add (h : Hashing) (ring : KeyRing) (key : Bytes) : KeyRing := ⟨ring.keys ++ [GrantKey.new h key]⟩

/-- `GrantKeys`. -/
structure GrantKeys where
  ring : KeyRing
  cookie : Bytes

structure GrantVerdict where
  ok : Bool
  channel : Bytes
  reason : Bytes
  deriving Repr, DecidableEq

/-- `_refuse`. -/
def refuse (reason : Bytes) : GrantVerdict := ⟨false, [], reason⟩

/-- `_is_channel_byte`. -/
def isChannelByte (b : UInt8) : Bool :=
  (b ≥ 0x41 && b ≤ 0x5A) || (b ≥ 0x61 && b ≤ 0x7A) || (b ≥ 0x30 && b ≤ 0x39) || b == 0x5F || b == 0x3A || b == 0x2D

/-- `_is_b64url_byte`. -/
def isB64urlByte (b : UInt8) : Bool :=
  (b ≥ 0x41 && b ≤ 0x5A) || (b ≥ 0x61 && b ≤ 0x7A) || (b ≥ 0x30 && b ≤ 0x39) || b == 0x2D || b == 0x5F

theorem isB64urlByte_urlSafe {c : UInt8} (hsymbol : Base64.isSymbol c = true) : isB64urlByte (urlSafe c) = true := by
  revert hsymbol
  exact forall_byte (P := fun c => Base64.isSymbol c = true → isB64urlByte (urlSafe c) = true)
    (by decide) c

theorem isB64urlByte_of_mem_base64url {data : Bytes} {c : UInt8} (hc : c ∈ base64url data) : isB64urlByte c = true := by
  rw [base64url_eq] at hc
  obtain ⟨x, hx, rfl⟩ := List.mem_map.mp hc
  exact isB64urlByte_urlSafe (Base64.isSymbol_of_mem_symbols data x hx)

theorem dot_notMem_base64url (data : Bytes) : DOT ∉ base64url data := by
  intro hdot
  have hbyte := isB64urlByte_of_mem_base64url hdot
  revert hbyte
  decide

/-! ## `SignedToken` -/

structure SignedToken where
  dots : List Nat
  length : Nat
  exp : Int
  key : Int
  wellFormed : Bool

/-- The loop over the token for its dots; `false` is the return at a dot too many. -/
def scanDots (most : Nat) : Bytes → (i : Nat) → (dots : List Nat) → List Nat × Bool
  | [], _, dots => (dots, true)
  | b :: rest, i, dots =>
    if b == DOT then
      if dots.length == most then (dots, false) else scanDots most rest (i + 1) (dots ++ [i])
    else scanDots most rest (i + 1) dots

/-- The loop over the expiry's digits, `none` at another byte. Twelve digits are far from the end of an
`Int64`, so the sum is the number. -/
def expOf : Bytes → (exp : Int) → Option Int
  | [], exp => some exp
  | b :: rest, exp => if b < ZERO || b > NINE then none else expOf rest (exp * 10 + (b - ZERO).toNat)

namespace SignedToken

/-- Where field `field` begins. -/
def start (t : SignedToken) (field : Nat) : Nat := Fields.start t.dots field

/-- `end`: where it ends. -/
def stop (t : SignedToken) (field : Nat) : Nat := Fields.stop t.dots t.length field

/-- `__init__` from its dots on: the expiry, or `none` where it returns with `well_formed` false. -/
def envelope (t : SignedToken) (token : Bytes) (fields : Nat) : Option Int :=
  let version := slice token 0 (t.dots.getD 0 0)
  if version.length != 2 || version.getD 0 0 != 0x76 || version.getD 1 0 != 0x31 then none
  else if t.stop 1 - t.start 1 != GRANT_KID_CHARS then none
  else
    let expField := slice token (t.start 2) (t.stop 2)
    if expField.length < 1 || expField.length > TOKEN_EXP_DIGITS then none
    else
      match expOf expField 0 with
      | none => none
      | some exp =>
        let tag := slice token (t.start (fields - 1)) token.length
        if tag.length != GRANT_SIG_CHARS then none
        else if tag.any fun b => !isB64urlByte b then none
        else some exp

/-- `__init__`. -/
def new (token : Bytes) (fields minLength : Nat) : SignedToken :=
  if token.length < minLength || token.length > TOKEN_MAX then ⟨[], token.length, 0, -1, false⟩
  else
    let (dots, fits) := scanDots (fields - 1) token 0 []
    let t : SignedToken := ⟨dots, token.length, 0, -1, false⟩
    if !fits || dots.length != fields - 1 then t
    else
      match t.envelope token fields with
      | none => t
      | some exp => { t with exp := exp, wellFormed := true }

/-- `check`: why the token is refused, empty where it is not. -/
def check (t : SignedToken) (token : Bytes) (keys : List GrantKey) (now : Int64) : Bytes × SignedToken :=
  let last := t.dots.length
  match findKey keys (slice token (t.start 1) (t.stop 1)) with
  | none => (ascii "unknown key", t)
  | some which =>
    let signed := slice token 0 (t.dots.getD (last - 1) 0)
    let tag := slice token (t.start last) t.length
    let expected := base64url ((keys.getD which default).mac signed)
    if !constantTimeEqual expected tag then (ascii "bad signature", t)
    else if now.toInt ≥ t.exp then (ascii "expired", t)
    else ([], { t with key := which })

end SignedToken

/-! ## A token made of its fields -/

theorem scanDots_of_le {most : Nat} {token : Bytes} {i : Nat} {dots : List Nat}
    (hle : dots.length + (token.idxsOf DOT i).length ≤ most) :
    scanDots most token i dots = (dots ++ token.idxsOf DOT i, true) := by
  induction token generalizing i dots with
  | nil => simp [scanDots]
  | cons b rest ih =>
    rw [List.idxsOf_cons] at hle ⊢
    unfold scanDots
    cases hdot : b == DOT with
    | true =>
      rw [hdot, if_pos rfl, List.length_cons] at hle
      have hroom : (dots.length == most) = false := by
        rw [beq_eq_false_iff_ne]
        omega
      rw [if_pos rfl, if_pos rfl, hroom, if_neg Bool.false_ne_true, ih (by
        rw [List.length_append, List.length_singleton]
        omega), List.append_assoc]
      rfl
    | false =>
      rw [hdot, if_neg Bool.false_ne_true] at hle
      rw [if_neg Bool.false_ne_true, if_neg Bool.false_ne_true, ih hle]

theorem expOf_digits {field : Bytes} (hdigits : ∀ b ∈ field, ZERO ≤ b ∧ b ≤ NINE) (exp : Nat) :
    expOf field exp = some ((field.foldl (fun v b => v * 10 + (b.toNat - 0x30)) exp : Nat) : Int) := by
  induction field generalizing exp with
  | nil => rfl
  | cons b rest ih =>
    obtain ⟨hzero, hnine⟩ := hdigits b List.mem_cons_self
    have hread : ∀ b : UInt8, ZERO ≤ b ∧ b ≤ NINE →
        (b < ZERO || b > NINE) = false ∧ (b - ZERO).toNat = b.toNat - 0x30 :=
      forall_byte (P := fun b => ZERO ≤ b ∧ b ≤ NINE →
        (b < ZERO || b > NINE) = false ∧ (b - ZERO).toNat = b.toNat - 0x30) (by decide)
    obtain ⟨hin, hvalue⟩ := hread b ⟨hzero, hnine⟩
    unfold expOf
    rw [if_neg (by simpa using hin), hvalue, List.foldl_cons]
    exact_mod_cast ih (fun x hx => hdigits x (List.mem_cons_of_mem _ hx)) (exp * 10 + (b.toNat - 0x30))

theorem expOf_decimal (n : Nat) : expOf (decimal n) 0 = some (n : Int) := by
  have hread := expOf_digits (decimal_digits n) 0
  rwa [foldl_decimal] at hread

/-- A sign is no digit. -/
theorem expOf_intText_neg {x : Int} (hneg : x < 0) : expOf (intText x) 0 = none := by
  unfold intText
  rw [if_pos hneg]
  rfl

/-- What the envelope asks of a token's fields, the expiry among them. -/
structure EnvelopeHolds (fields : List Bytes) (exp : Int) : Prop where
  version : fields.getD 0 [] = ascii "v1"
  kid : (fields.getD 1 []).length = GRANT_KID_CHARS
  digits : 1 ≤ (fields.getD 2 []).length ∧ (fields.getD 2 []).length ≤ TOKEN_EXP_DIGITS
  exp : expOf (fields.getD 2 []) 0 = some exp
  tag : (fields.getD (fields.length - 1) []).length = GRANT_SIG_CHARS ∧
    ∀ b ∈ fields.getD (fields.length - 1) [], isB64urlByte b = true

section Fields

variable {fields : List Bytes} (hnot : ∀ f ∈ fields, DOT ∉ f) {token : Bytes}
  (htoken : token = [DOT].intercalate fields) {t : SignedToken} (hdots : t.dots = token.idxsOf DOT)
  (hlength : t.length = token.length)

include hnot htoken

section

include hdots hlength

theorem SignedToken.stop_sub_start {k : Nat} (hk : k < fields.length) :
    t.stop k = t.start k + (fields.getD k []).length := by
  unfold stop start
  rw [hdots, hlength, Fields.stop_eq hnot hk htoken, List.getD_eq_getElem _ _ hk]

/-- **A field** is what stands between two dots. -/
theorem SignedToken.slice_field {k : Nat} (hk : k < fields.length) :
    slice token (t.start k) (t.stop k) = fields.getD k [] := by
  rw [stop_sub_start hnot htoken hdots hlength hk]
  unfold slice start
  rw [Nat.add_sub_cancel_left, hdots, List.getD_eq_getElem _ _ hk]
  exact Fields.slice_intercalate hnot hk htoken

theorem SignedToken.envelope_eq_some {exp : Int} (hfour : 4 ≤ fields.length) :
    t.envelope token fields.length = some exp ↔ EnvelopeHolds fields exp := by
  have hmarks : t.dots.length + 1 = fields.length := by
    rw [hdots, htoken]
    exact Fields.length_idxsOf_intercalate hnot (by rintro rfl; cases hfour) 0
  have hversion : slice token 0 (t.dots.getD 0 0) = fields.getD 0 [] := by
    have hfield := slice_field hnot htoken hdots hlength (k := 0) (by omega)
    rw [← hfield]
    unfold start stop Fields.start Fields.stop
    rw [if_pos rfl, if_pos (by omega)]
  have htag : slice token (t.start (fields.length - 1)) token.length = fields.getD (fields.length - 1) [] := by
    have hfield := slice_field hnot htoken hdots hlength (k := fields.length - 1) (by omega)
    rw [← hfield]
    unfold stop Fields.stop
    rw [if_neg (by omega), hlength]
  have hkid := stop_sub_start hnot htoken hdots hlength (k := 1) (by omega)
  have hexp := slice_field hnot htoken hdots hlength (k := 2) (by omega)
  have hv1 : ∀ v : Bytes, (v.length != 2 || v.getD 0 0 != 0x76 || v.getD 1 0 != 0x31) = false ↔ v = ascii "v1" := by
    intro v
    match v with
    | [] => decide
    | [_] => simp [ascii]
    | [a, b] => simp [ascii]
    | _ :: _ :: _ :: _ => simp [ascii]
  unfold envelope
  dsimp only
  rw [hversion, htag, hkid, hexp, Nat.add_sub_cancel_left]
  constructor
  · intro heq
    by_cases hv : (fields.getD 0 []).length != 2 || (fields.getD 0 []).getD 0 0 != 0x76 ||
        (fields.getD 0 []).getD 1 0 != 0x31
    · rw [if_pos hv] at heq
      cases heq
    rw [if_neg hv] at heq
    by_cases hk : (fields.getD 1 []).length != GRANT_KID_CHARS
    · rw [if_pos hk] at heq
      cases heq
    rw [if_neg hk] at heq
    by_cases hd : (fields.getD 2 []).length < 1 || (fields.getD 2 []).length > TOKEN_EXP_DIGITS
    · rw [if_pos hd] at heq
      cases heq
    rw [if_neg hd] at heq
    cases he : expOf (fields.getD 2 []) 0 with
    | none =>
      rw [he] at heq
      cases heq
    | some value =>
      rw [he] at heq
      dsimp only at heq
      by_cases hl : (fields.getD (fields.length - 1) []).length != GRANT_SIG_CHARS
      · rw [if_pos hl] at heq
        cases heq
      rw [if_neg hl] at heq
      by_cases hb : (fields.getD (fields.length - 1) []).any fun b => !isB64urlByte b
      · rw [if_pos hb] at heq
        cases heq
      rw [if_neg hb] at heq
      refine ⟨(hv1 _).mp (Bool.eq_false_iff.mpr hv), by simpa using hk, ?_, heq ▸ he, by simpa using hl, ?_⟩
      · simp only [Bool.or_eq_true, decide_eq_true_eq, not_or, Nat.not_lt] at hd
        exact hd
      · simpa using hb
  · rintro ⟨hv, hk, hd, he, hl, hb⟩
    rw [(hv1 _).mpr hv, if_neg Bool.false_ne_true, hk, if_neg (by simp), if_neg (by
      simp only [Bool.or_eq_true, decide_eq_true_eq, not_or, Nat.not_lt]
      exact hd), he]
    dsimp only
    rw [hl, if_neg (by simp), if_neg (by simpa using hb)]

end

/-- The scan finds every dot. -/
theorem scanDots_token (hne : fields ≠ []) : (token.idxsOf DOT).length + 1 = fields.length ∧
    scanDots (fields.length - 1) token 0 [] = (token.idxsOf DOT, true) := by
  have hmarks : (token.idxsOf DOT).length + 1 = fields.length := by
    rw [htoken]
    exact Fields.length_idxsOf_intercalate hnot hne 0
  exact ⟨hmarks, scanDots_of_le (by rw [List.length_nil]; omega)⟩

theorem SignedToken.new_eq {exp : Int} {minLength : Nat} (hfour : 4 ≤ fields.length)
    (hmin : minLength ≤ token.length) (hmax : token.length ≤ TOKEN_MAX) (hholds : EnvelopeHolds fields exp) :
    SignedToken.new token fields.length minLength = ⟨token.idxsOf DOT, token.length, exp, -1, true⟩ := by
  obtain ⟨hmarks, hscan⟩ := scanDots_token hnot htoken (by rintro rfl; cases hfour)
  have henvelope := (SignedToken.envelope_eq_some hnot htoken
    (t := ⟨token.idxsOf DOT, token.length, 0, -1, false⟩) rfl rfl hfour).mpr hholds
  unfold SignedToken.new
  rw [if_neg (by
    simp only [Bool.or_eq_true, decide_eq_true_eq, not_or]
    omega), hscan]
  dsimp only
  rw [if_neg (by
    simp only [Bool.not_true, Bool.false_or, bne_iff_ne, not_not]
    omega), henvelope]

theorem SignedToken.holds_of_wellFormed {minLength : Nat} (hfour : 4 ≤ fields.length)
    (hformed : (SignedToken.new token fields.length minLength).wellFormed = true) :
    ∃ exp, EnvelopeHolds fields exp := by
  obtain ⟨hmarks, hscan⟩ := scanDots_token hnot htoken (by rintro rfl; cases hfour)
  revert hformed
  unfold SignedToken.new
  split
  · intro hformed
    cases hformed
  · rw [hscan]
    dsimp only
    split
    · intro hformed
      cases hformed
    · cases henvelope : (SignedToken.envelope ⟨token.idxsOf DOT, token.length, 0, -1, false⟩ token fields.length) with
      | none =>
        intro hformed
        cases hformed
      | some exp =>
        exact fun _ => ⟨exp, (SignedToken.envelope_eq_some hnot htoken rfl rfl hfour).mp henvelope⟩

/-- **A tag of a key on the ring** passes, until the clock is at the expiry. -/
theorem SignedToken.check_eq_nil {keys : List GrantKey} {key : GrantKey} (hmem : key ∈ keys)
    (hdistinct : (keys.map GrantKey.kid).Nodup) {signed : Bytes} {now : Int64}
    (hdots : t.dots = token.idxsOf DOT) (hlength : t.length = token.length) (hthree : 3 ≤ fields.length)
    (hsplit : token = signed ++ DOT :: fields.getD (fields.length - 1) [])
    (hkid : fields.getD 1 [] = key.kid) (htag : fields.getD (fields.length - 1) [] = base64url (key.mac signed))
    (hnow : now.toInt < t.exp) : (t.check token keys now).1 = [] := by
  obtain ⟨hmarks, -⟩ := scanDots_token hnot htoken (by rintro rfl; cases hthree)
  obtain ⟨which, hfound, hkey⟩ := findKey_of_mem hmem hdistinct
  have hlast : t.dots.length = fields.length - 1 := by
    rw [hdots]
    omega
  have hin : fields.getD (fields.length - 1) [] ∈ fields := by
    rw [List.getD_eq_getElem _ _ (by omega)]
    exact List.getElem_mem _
  have htagField := slice_field hnot htoken hdots hlength (k := fields.length - 1) (by omega)
  have hend : t.stop (fields.length - 1) = t.length := by
    unfold stop Fields.stop
    rw [if_neg (by omega)]
  rw [hend] at htagField
  have hsigned : slice token 0 (t.dots.getD (t.dots.length - 1) 0) = signed := by
    rw [hdots]
    have hat : (token.idxsOf DOT).getD ((token.idxsOf DOT).length - 1) 0 = signed.length := by
      rw [hsplit]
      exact Fields.getD_idxsOf_last (hnot _ hin) signed
    rw [hat, hsplit]
    simp [slice]
  unfold check
  dsimp only
  rw [slice_field hnot htoken hdots hlength (k := 1) (by omega), hkid, hfound]
  dsimp only
  rw [hsigned, hlast, htagField, hkey, htag, constantTimeEqual_iff.mpr rfl, Bool.not_true,
    if_neg Bool.false_ne_true, if_neg (by omega)]

end Fields

/-- The checks `verify_grant` makes of the channel field. -/
def channelHolds (channel : Bytes) : Bool :=
  !(channel.length < 1 || channel.length > GRANT_CHANNEL_MAX) && channel.all isChannelByte

/-- `verify_grant`. -/
def verifyGrant (h : Hashing) (grant : Bytes) (keys : GrantKeys) (now : Int64) (cookie : Option Bytes) :
    GrantVerdict :=
  let token := SignedToken.new grant 6 20
  if !token.wellFormed then refuse (ascii "malformed")
  else
    let channel := slice grant (token.start 3) (token.stop 3)
    let sb := slice grant (token.start 4) (token.stop 4)
    if !channelHolds channel then refuse (ascii "malformed")
    else
      let bound := !(sb.length == 1 && sb.getD 0 0 == 0x2D)
      if bound && (sb.length != GRANT_SB_CHARS || sb.any fun b => !isB64urlByte b) then refuse (ascii "malformed")
      else
        let refused := (token.check grant keys.ring.keys now).1
        if !refused.isEmpty then refuse refused
        else if bound then
          match cookie with
          | none => refuse (ascii "no session cookie")
          | some value =>
            if !constantTimeEqual (sessionBinding h value) sb then refuse (ascii "session mismatch")
            else ⟨true, channel, []⟩
        else ⟨true, channel, []⟩

section Grant

variable {h : Hashing} {fields : List Bytes} (hnot : ∀ f ∈ fields, DOT ∉ f) (hsix : fields.length = 6) {grant : Bytes}
  (hgrant : grant = [DOT].intercalate fields)

include hnot hsix hgrant

/-- **A grant made of its fields is accepted** when the envelope holds, the channel and the binding pass their
checks, the tag is one of a key on the ring, the clock is before the expiry, and the cookie is the one the grant is bound to. -/
theorem verifyGrant_eq {exp : Int} (hmin : 20 ≤ grant.length) (hmax : grant.length ≤ TOKEN_MAX)
    (hholds : EnvelopeHolds fields exp) {keys : GrantKeys} {key : GrantKey} (hmem : key ∈ keys.ring.keys)
    (hdistinct : (keys.ring.keys.map GrantKey.kid).Nodup) {signed : Bytes}
    (hsplit : grant = signed ++ DOT :: fields.getD 5 []) (hkid : fields.getD 1 [] = key.kid)
    (htag : fields.getD 5 [] = base64url (key.mac signed)) {now : Int64} (hnow : now.toInt < exp)
    (hchannel : channelHolds (fields.getD 3 []) = true) {cookie : Option Bytes}
    (hbound : fields.getD 4 [] = ascii "-" ∨ ∃ value, cookie = some value ∧ fields.getD 4 [] = sessionBinding h value) :
    verifyGrant h grant keys now cookie = ⟨true, fields.getD 3 [], []⟩ := by
  have hnew := SignedToken.new_eq hnot hgrant (by omega) hmin hmax hholds
  rw [hsix] at hnew
  unfold verifyGrant
  rw [hnew]
  generalize ht : (⟨grant.idxsOf DOT, grant.length, exp, -1, true⟩ : SignedToken) = t
  have hdots : t.dots = grant.idxsOf DOT := by rw [← ht]
  have hlength : t.length = grant.length := by rw [← ht]
  have hformed : t.wellFormed = true := by rw [← ht]
  have hexp : t.exp = exp := by rw [← ht]
  have hcheck : (t.check grant keys.ring.keys now).1 = [] :=
    SignedToken.check_eq_nil hnot hgrant hmem hdistinct hdots hlength (by omega) (by rw [hsix]; exact hsplit) hkid
      (by rw [hsix]; exact htag) (by rw [hexp]; exact hnow)
  dsimp only
  rw [hformed, Bool.not_true, if_neg Bool.false_ne_true, SignedToken.slice_field hnot hgrant hdots hlength (by omega),
    SignedToken.slice_field hnot hgrant hdots hlength (by omega), hchannel, Bool.not_true, if_neg Bool.false_ne_true,
    hcheck]
  rcases hbound with hunbound | ⟨value, rfl, hsb⟩
  · rw [hunbound]
    rfl
  · have hlen : (sessionBinding h value).length = 22 := by
      unfold sessionBinding
      rw [length_base64url, length_slice, h.length_sha256]
      rfl
    have hsame : constantTimeEqual (sessionBinding h value) (sessionBinding h value) = true :=
      constantTimeEqual_iff.mpr rfl
    rw [hsb, hlen]
    dsimp only
    rw [hsame]
    have hbytes : ((sessionBinding h value).any fun b => !isB64urlByte b) = false := by
      rw [List.any_eq_false]
      intro b hb
      rw [isB64urlByte_of_mem_base64url hb]
      decide
    rw [hbytes]
    rfl

/-- A grant made of its fields is accepted only where the envelope holds. -/
theorem holds_of_verifyGrant {keys : GrantKeys} {now : Int64} {cookie : Option Bytes}
    (hok : (verifyGrant h grant keys now cookie).ok = true) : ∃ exp, EnvelopeHolds fields exp := by
  have hformed : (SignedToken.new grant fields.length 20).wellFormed = true := by
    rw [hsix]
    by_contra hnot
    rw [Bool.not_eq_true] at hnot
    revert hok
    unfold verifyGrant
    dsimp only
    rw [hnot, Bool.not_false, if_pos rfl]
    exact Bool.false_ne_true
  exact SignedToken.holds_of_wellFormed hnot hgrant (by omega) hformed

end Grant

end MojoHttp
