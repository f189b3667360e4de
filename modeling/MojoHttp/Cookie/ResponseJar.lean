import MojoHttp.Header.LineBytes
import MojoHttp.Lib.InsertionMap

/-!
# The response's cookies (`cookie/cookie.mojo`, `cookie/response_cookie_jar.mojo`)

A jar holds the cookies a view built, one a name, domain and path, and finished `Set-Cookie`
values written as given.

* **`Cookie.buildHeaderValue`** — a cookie's fields in their fixed order.
* **`ResponseCookieJar.writeLatin1To`** — the jar's lines for the wire.
* **`ResponseCookieJar.writeLatin1To_eq`** — one line for each value kept, and no other.
-/

namespace MojoHttp

open CrlfText (crlf unlines)

structure SameSite where
  value : UInt8
  deriving Repr, DecidableEq

/-- `SameSite.__str__`. -/
def SameSite.text (s : SameSite) : Bytes :=
  if s.value = 0 then ascii "none" else if s.value = 1 then ascii "lax" else ascii "strict"

structure Duration where
  totalSeconds : Int
  deriving Repr, DecidableEq

structure Cookie where
  name : Bytes
  value : Bytes
  maxAge : Option Duration := none
  domain : Option Bytes := none
  path : Option Bytes := none
  sameSite : Option SameSite := none
  secure : Bool := false
  httpOnly : Bool := false
  partitioned : Bool := false
  deriving Repr, DecidableEq

namespace Cookie

def separator : Bytes := ascii "; "

def equal : Bytes := ascii "="

/-- `SEPARATOR, key, EQUAL, value` of an attribute that is set. -/
def valued (key : Bytes) (value : Option Bytes) : Bytes :=
  match value with
  | some value => separator ++ key ++ equal ++ value
  | none => []

/-- `SEPARATOR, key` of a flag that is set. -/
def flag (key : Bytes) (set : Bool) : Bytes := if set then separator ++ key else []

/-- `build_header_value`. -/
def buildHeaderValue (c : Cookie) : Bytes :=
  c.name ++ equal ++ c.value ++
    valued (ascii "Max-Age") (c.maxAge.map fun d => intText d.totalSeconds) ++
    valued (ascii "Domain") c.domain ++
    valued (ascii "Path") c.path ++
    flag (ascii "Secure") c.secure ++
    flag (ascii "HttpOnly") c.httpOnly ++
    valued (ascii "SameSite") (c.sameSite.map SameSite.text) ++
    flag (ascii "Partitioned") c.partitioned

end Cookie

structure ResponseCookieKey where
  name : Bytes
  domain : Bytes
  path : Bytes
  deriving Repr, DecidableEq

/-- `ResponseCookieKey(name, domain, path)`: a path that does not start with `/` is the
default-path. -/
def ResponseCookieKey.of (c : Cookie) : ResponseCookieKey where
  name := c.name
  domain := c.domain.getD []
  path :=
    let p := c.path.getD []
    if p.head? = some BytesConstant.SLASH then p else []

structure ResponseCookieJar where
  inner : InsertionMap ResponseCookieKey Cookie
  /-- Values written as `Set-Cookie` exactly as given, after the cookies. -/
  raw : List Bytes

/-- `_adds_no_attribute`: no `;` and no control byte. -/
def addsNoAttribute (text : Bytes) : Bool :=
  text.all fun c => !(c < 0x20 || c == 0x7F || c == 0x3B)

def builtCookieIsWellFormed (c : Cookie) : Bool :=
  c.name.length ≠ 0 && c.name.all isTokenChar && addsNoAttribute c.value &&
    c.domain.all addsNoAttribute && c.path.all addsNoAttribute

/-- `_write_set_cookie_latin1`. -/
def writeSetCookieLatin1 (value : Bytes) : Bytes := latin1HeaderLine (ascii "set-cookie") value

namespace ResponseCookieJar

def empty : ResponseCookieJar := ⟨InsertionMap.empty, []⟩

def setCookie (jar : ResponseCookieJar) (c : Cookie) : ResponseCookieJar :=
  { jar with inner := jar.inner.set (ResponseCookieKey.of c) c }

def addRaw (jar : ResponseCookieJar) (line : Bytes) : ResponseCookieJar :=
  { jar with raw := jar.raw ++ [line] }

/-- `_inner.values()`. -/
def cookies (jar : ResponseCookieJar) : List Cookie := jar.inner.entries.map Prod.snd

/-- `write_latin1_to`: what it writes. -/
def writeLatin1To (jar : ResponseCookieJar) : Bytes :=
  (jar.cookies.flatMap fun c =>
    if !builtCookieIsWellFormed c then [] else writeSetCookieLatin1 c.buildHeaderValue) ++
    jar.raw.flatMap writeSetCookieLatin1

end ResponseCookieJar

/-! ## What is written -/

namespace ResponseCookieJar

/-- The `Set-Cookie` values of the jar: the well-formed cookies', then the finished ones. -/
def values (jar : ResponseCookieJar) : List Bytes :=
  (jar.cookies.filter builtCookieIsWellFormed).map Cookie.buildHeaderValue ++ jar.raw

/-- The cookies that are kept: those whose value holds no CR, LF or NUL. -/
def kept (jar : ResponseCookieJar) : List Bytes := jar.values.filter fun v => decide (Clean v)

/-- **One line for each cookie that is kept.** -/
theorem writeLatin1To_eq (jar : ResponseCookieJar) :
    jar.writeLatin1To =
      unlines (jar.kept.map (fieldLine (ascii "set-cookie"))) := by
  have hone : ∀ vs : List Bytes, vs.flatMap writeSetCookieLatin1 =
      unlines ((vs.filter fun v => decide (Clean v)).map (fieldLine (ascii "set-cookie"))) := by
    intro vs
    induction vs with
    | nil => rfl
    | cons v vs ih =>
      rw [List.flatMap_cons, ih, writeSetCookieLatin1, latin1HeaderLine_eq]
      by_cases hclean : Clean v
      · rw [if_pos hclean, List.filter_cons_of_pos (by simpa using hclean)]
        rfl
      · rw [if_neg hclean, List.filter_cons_of_neg (by simpa using hclean)]
        rfl
  have hbuilt : ∀ cs : List Cookie, (cs.flatMap fun c =>
      if !builtCookieIsWellFormed c then [] else writeSetCookieLatin1 c.buildHeaderValue) =
        ((cs.filter builtCookieIsWellFormed).map Cookie.buildHeaderValue).flatMap
          writeSetCookieLatin1 := by
    intro cs
    induction cs with
    | nil => rfl
    | cons c cs ih =>
      rw [List.flatMap_cons, ih]
      cases hc : builtCookieIsWellFormed c with
      | true => rw [List.filter_cons_of_pos hc, List.map_cons, List.flatMap_cons, if_neg (by decide)]
      | false => rw [List.filter_cons_of_neg (by simp [hc]), if_pos (by decide), List.nil_append]
  unfold writeLatin1To kept values
  rw [hbuilt, ← List.flatMap_append, hone]

end ResponseCookieJar

end MojoHttp
