import MojoHttp.Bytes

/-!
# Connection strings (`m0-postgres`, `url.mojo`)

The defaults this package applies to a connection string, and the read-only variant of them.

* **`hasKeyword`** — a substring search with a boundary in front.
* **`withDefaults`** — one default after the other, each where the search does not find its keyword.
* **`readOnly_eq`** — the read-only string is the defaults with another value for the last of them.
-/

namespace MojoHttp.Postgres

def DEFAULT_CONNECT_TIMEOUT : Bytes := ascii "5"
def DEFAULT_STATEMENT_TIMEOUT_MS : Bytes := ascii "5000"
def DEFAULT_KEEPALIVES_IDLE_S : Bytes := ascii "30"
def DEFAULT_KEEPALIVES_INTERVAL_S : Bytes := ascii "10"
def DEFAULT_KEEPALIVES_COUNT : Bytes := ascii "3"
def DEFAULT_TCP_USER_TIMEOUT_MS : Bytes := ascii "60000"

abbrev QUESTION : UInt8 := 0x3F
abbrev AMP : UInt8 := 0x26
abbrev EQUALS : UInt8 := 0x3D

/-- `_is_space`. -/
def isSpace (b : UInt8) : Bool := b == 0x20 || b == 0x09 || b == 0x0A || b == 0x0D || b == 0x0B || b == 0x0C

/-- `_split_query`. -/
def splitQuery (url : Bytes) : Bytes × Bytes :=
  (url.takeWhile (· != QUESTION), (url.dropWhile (· != QUESTION)).drop 1)

/-- `is_uri`. -/
def isUri (url : Bytes) : Bool := (ascii "postgres://").isPrefixOf url || (ascii "postgresql://").isPrefixOf url

/-- What may stand in front of a keyword; `none` is the start. -/
def isBoundary : Option UInt8 → Bool
  | none => true
  | some prev => prev == QUESTION || prev == AMP || isSpace prev

/-- The loop of `has_keyword`, `prev` the byte in front of the rest. -/
def hasNeedle (needle : Bytes) : Option UInt8 → Bytes → Bool
  | _, [] => false
  | prev, b :: rest => (needle.isPrefixOf (b :: rest) && isBoundary prev) || hasNeedle needle (some b) rest

/-- `has_keyword`. -/
def hasKeyword (url key : Bytes) : Bool := hasNeedle (key ++ [EQUALS]) none url

/-- `_sep`. -/
def sep (soFar : Bytes) (uri : Bool) : Bytes :=
  if !uri then ascii " "
  else if soFar.getLast? == some QUESTION || soFar.getLast? == some AMP then []
  else if (splitQuery soFar).2.length > 0 then ascii "&"
  else ascii "?"

/-- `_options_value`. -/
def optionsValue (value : Bytes) (uri : Bool) : Bytes :=
  if !uri then ascii "'" ++ value ++ ascii "'"
  else value.flatMap fun ch => if ch == 0x20 then ascii "%20" else if ch == EQUALS then ascii "%3D" else [ch]

/-- What `with_defaults` does for one default. -/
def addDefault (scope : Bytes) (uri : Bool) (out : Bytes) (default : Bytes × Bytes) : Bytes :=
  if hasKeyword scope default.1 then out else out ++ (sep out uri ++ (default.1 ++ EQUALS :: default.2))

/-- The defaults in front of `options`. -/
def plainDefaults : List (Bytes × Bytes) :=
  [(ascii "connect_timeout", DEFAULT_CONNECT_TIMEOUT),
    (ascii "client_encoding", ascii "UTF8"),
    (ascii "application_name", ascii "m0serve"),
    (ascii "keepalives", ascii "1"),
    (ascii "keepalives_idle", DEFAULT_KEEPALIVES_IDLE_S),
    (ascii "keepalives_interval", DEFAULT_KEEPALIVES_INTERVAL_S),
    (ascii "keepalives_count", DEFAULT_KEEPALIVES_COUNT),
    (ascii "tcp_user_timeout", DEFAULT_TCP_USER_TIMEOUT_MS)]

/-- Where the keywords live: a URI's query string, or the whole conninfo. -/
def scopeOf (url : Bytes) : Bytes := if isUri url then (splitQuery url).2 else url

/-- The defaults as `with_defaults` writes them, one after the other. -/
def merge (defaults : List (Bytes × Bytes)) (url : Bytes) : Bytes :=
  defaults.foldl (addDefault (scopeOf url) (isUri url)) url

/-- The value of `options`. -/
def statementTimeout : Bytes := ascii "-c statement_timeout=" ++ DEFAULT_STATEMENT_TIMEOUT_MS

/-- `with_defaults`. -/
def withDefaults (url : Bytes) : Bytes :=
  merge (plainDefaults ++ [(ascii "options", optionsValue statementTimeout (isUri url))]) url

/-- What `read_only` adds to the value of `options`. -/
def readOnlyExtra : Bytes := ascii " -c default_transaction_read_only=on"

/-- `read_only`. -/
def readOnly (url : Bytes) : Except String Bytes :=
  if hasKeyword url (ascii "options") then
    .error ("open_readonly cannot add its read-only default to a connection string that already sets `options` — put" ++
      " `-c default_transaction_read_only=on` in yours, or use `open`")
  else
    let base := withDefaults url
    if !isUri url then .ok (base.dropLast ++ readOnlyExtra ++ ascii "'")
    else .ok (base ++ optionsValue readOnlyExtra true)

/-- `_libpq_keywords`: what libpq 12 through 18 accepts. -/
def libpqKeywords : List Bytes :=
  [ascii "host", ascii "hostaddr", ascii "port", ascii "dbname", ascii "user", ascii "password", ascii "passfile",
    ascii "require_auth", ascii "channel_binding", ascii "connect_timeout", ascii "client_encoding", ascii "options",
    ascii "application_name", ascii "fallback_application_name", ascii "keepalives", ascii "keepalives_idle",
    ascii "keepalives_interval", ascii "keepalives_count", ascii "tcp_user_timeout", ascii "replication",
    ascii "gssencmode", ascii "sslmode", ascii "sslnegotiation", ascii "sslcompression", ascii "sslcert",
    ascii "sslkey", ascii "sslkeylogfile", ascii "sslpassword", ascii "sslcertmode", ascii "sslrootcert",
    ascii "sslcrl", ascii "sslcrldir", ascii "sslsni", ascii "requirepeer", ascii "requiressl",
    ascii "ssl_min_protocol_version", ascii "ssl_max_protocol_version", ascii "min_protocol_version",
    ascii "max_protocol_version", ascii "krbsrvname", ascii "gsslib", ascii "gssdelegation", ascii "service",
    ascii "target_session_attrs", ascii "load_balance_hosts", ascii "oauth_issuer", ascii "oauth_client_id",
    ascii "oauth_client_secret", ascii "oauth_scope", ascii "ssl"]

/-- `is_libpq_keyword`. -/
def isLibpqKeyword (key : Bytes) : Bool := libpqKeywords.any fun known => known == key

/-! ## The search -/

theorem hasNeedle_of_cons {needle : Bytes} {prev : Option UInt8} {b : UInt8} {rest : Bytes}
    (h : hasNeedle needle (some b) rest = true) : hasNeedle needle prev (b :: rest) = true := by
  rw [hasNeedle, h, Bool.or_true]

theorem hasNeedle_of_append {needle : Bytes} {b : UInt8} {rest : Bytes} (h : hasNeedle needle (some b) rest = true)
    (front : Bytes) (prev : Option UInt8) : hasNeedle needle prev (front ++ b :: rest) = true := by
  induction front generalizing prev with
  | nil => exact hasNeedle_of_cons h
  | cons c front ih => exact hasNeedle_of_cons (ih (some c))

/-- Behind a byte that is a boundary the search finds what it finds at the start. -/
theorem hasNeedle_boundary {b : UInt8} (hb : isBoundary (some b) = true) (needle text : Bytes) :
    hasNeedle needle (some b) text = hasNeedle needle none text := by
  cases text with
  | nil => rfl
  | cons c text =>
    rw [hasNeedle, hasNeedle, hb]
    rfl

theorem splitQuery_eq {url : Bytes} (h : QUESTION ∈ url) :
    url = (splitQuery url).1 ++ QUESTION :: (splitQuery url).2 := by
  have hne : url.dropWhile (· != QUESTION) ≠ [] := by
    intro hnil
    rw [List.dropWhile_eq_nil_iff] at hnil
    simpa using hnil QUESTION h
  obtain ⟨b, rest, hrest⟩ := List.exists_cons_of_ne_nil hne
  have hb : b = QUESTION := by
    have hhead := List.head?_dropWhile_not (fun c => c != QUESTION) url
    rw [hrest] at hhead
    simpa using hhead
  have hsplit := List.takeWhile_append_dropWhile (p := (· != QUESTION)) (l := url)
  rw [hrest, hb] at hsplit
  rw [splitQuery, hrest, List.drop_one, List.tail_cons, hsplit]

theorem splitQuery_notMem {url : Bytes} (h : QUESTION ∉ url) : splitQuery url = (url, []) := by
  have hall : ∀ b ∈ url, (b != QUESTION) = true := by
    intro b hb
    exact bne_iff_ne.mpr fun heq => h (heq ▸ hb)
  rw [splitQuery, List.takeWhile_eq_self_iff.mpr hall, List.dropWhile_eq_nil_iff.mpr hall]
  rfl

/-- A keyword found where the defaults look is found in the whole string. -/
theorem hasKeyword_of_scope {url key : Bytes} (h : hasKeyword (scopeOf url) key = true) : hasKeyword url key = true := by
  unfold scopeOf at h
  split at h
  · by_cases hmem : QUESTION ∈ url
    · rw [splitQuery_eq hmem]
      refine hasNeedle_of_append ?_ _ _
      rw [hasNeedle_boundary rfl]
      exact h
    · rw [splitQuery_notMem hmem] at h
      exact absurd h (by simp [hasKeyword, hasNeedle])
  · exact h

/-! ## What is added -/

/-- The defaults that the search does not find. -/
def missing (defaults : List (Bytes × Bytes)) (url : Bytes) : List (Bytes × Bytes) :=
  defaults.filter fun d => !hasKeyword (scopeOf url) d.1

theorem foldl_addDefault (scope : Bytes) (uri : Bool) (defaults : List (Bytes × Bytes)) (out : Bytes) :
    defaults.foldl (addDefault scope uri) out =
      (defaults.filter fun d => !hasKeyword scope d.1).foldl
        (fun out d => out ++ (sep out uri ++ (d.1 ++ EQUALS :: d.2))) out := by
  induction defaults generalizing out with
  | nil => rfl
  | cons d defaults ih =>
    rw [List.foldl_cons, ih, List.filter_cons]
    cases h : hasKeyword scope d.1 <;> simp [addDefault, h]

/-- The read-only string is the defaults with the two commands as the value of `options`. -/
theorem readOnly_eq {url : Bytes} (h : hasKeyword url (ascii "options") = false) :
    readOnly url =
      .ok (merge (plainDefaults ++ [(ascii "options", optionsValue (statementTimeout ++ readOnlyExtra) (isUri url))])
        url) := by
  have hscope : hasKeyword (scopeOf url) (ascii "options") = false := by
    rw [Bool.eq_false_iff]
    intro hfound
    rw [hasKeyword_of_scope hfound] at h
    exact absurd h (by decide)
  rw [readOnly, if_neg (Bool.eq_false_iff.mp h)]
  simp only [withDefaults, merge, List.foldl_append, List.foldl_cons, List.foldl_nil, addDefault, hscope,
    Bool.false_eq_true, if_false]
  cases huri : isUri url with
  | false =>
    -- the quote that closes the value is taken off and written again behind the second command
    have hquote : ∀ v, optionsValue v false = (ascii "'" ++ v) ++ [0x27] := fun _ => rfl
    have hlast : ascii "'" = [0x27] := rfl
    simp only [hquote, hlast, Bool.not_false, if_true]
    rw [← List.cons_append, ← List.append_assoc, ← List.append_assoc, ← List.append_assoc, List.dropLast_concat]
    simp
  | true =>
    have happ : optionsValue (statementTimeout ++ readOnlyExtra) true =
        optionsValue statementTimeout true ++ optionsValue readOnlyExtra true := List.flatMap_append
    simp [happ]

end MojoHttp.Postgres
