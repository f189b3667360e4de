import MojoHttp.Http.Response
import MojoHttp.Uri

/-!
# Static files (`static.mojo`, `etag.mojo`)

`StaticFiles` serves the files under a root at the paths under a prefix. The file system is a
parameter; what `serve` asks of it is kept beside what it answers.

* **`safeJoin_eq`** — the join takes a path apart at its slashes, and refuses a segment that is
  empty, `.` or `..`, or holds a backslash or a NUL.
* **`answer_confined`** — a request is declined, refused, or its calls are on the path it joined.
* **`serve_stays_under_root`** — no request reaches a file outside the root.
-/

namespace MojoHttp

open BytesConstant

/-! ## Responses with a file for a body -/

/-- An `HTTPResponse` with `body_fd` and its bounds; no file is -1. -/
structure FileResponse extends HTTPResponse where
  bodyFd : Int
  bodyFdOffset : Int
  bodyFdLen : Int

/-- `is_bodiless_status`. -/
def isBodilessStatus (code : Int) : Bool := (code ≥ 100 && code < 200) || code == 204 || code == 304

/-- `Headers(Header(..), ..)`. -/
def Headers.ofList (headers : List (Bytes × Bytes)) : Headers :=
  headers.foldl (fun h header => h.setBytes .packed header.1 header.2) Headers.empty

namespace FileResponse

/-- `set_content_length`. -/
def setContentLength (h : Headers) (l : Int) : Headers :=
  h.setIntKnown .packed (some .contentLength) KnownHeader.contentLength.name (Int64.ofInt l)

/-- `HTTPResponse(..)`: the entity defaults go in for a status that has a body. -/
def new (bodyBytes : Bytes) (headers : Headers) (statusCode : Int) (statusText : Bytes) : FileResponse :=
  let invent := !isBodilessStatus statusCode
  let headers :=
    if invent && (headers.knownIndex .contentType).isNone then
      headers.setBytes .packed KnownHeader.contentType.name (ascii "application/octet-stream")
    else headers
  let headers :=
    if (headers.knownIndex .connection).isNone then
      headers.setBytesKnown .packed KnownHeader.connection.name (ascii "keep-alive") (some .connection)
    else headers
  let headers :=
    if invent && (headers.knownIndex .contentLength).isNone then setContentLength headers bodyBytes.length
    else headers
  { headers, cookies := ResponseCookieJar.empty, bodyRaw := bodyBytes, statusCode, statusText,
    protocol := strHttp11, bodyFd := -1, bodyFdOffset := 0, bodyFdLen := 0 }

/-- `set_file_body`. -/
def setFileBody (r : FileResponse) (fd offset length : Int) : FileResponse :=
  { r with
    bodyRaw := []
    bodyFd := fd
    bodyFdOffset := offset
    bodyFdLen := length
    headers := setContentLength r.headers length }

/-- `resp.headers[name] = value`. -/
def setHeader (r : FileResponse) (name value : Bytes) : FileResponse :=
  { r with headers := r.headers.setBytes .packed name value }

end FileResponse

/-! ## Validators (`etag.mojo`) -/

/-- `_opaque_bounds`. -/
def opaqueBounds (bytes : Bytes) (a b : Nat) : Nat × Nat :=
  if b - a ≥ 2 ∧ bytes.getD a 0 = 0x57 ∧ bytes.getD (a + 1) 0 = 0x2F then (a + 2, b) else (a, b)

/-- The loop of `etag_matches` over the members of the list. -/
def etagMatchesFrom (want inm : Bytes) : (turns seg : Nat) → Bool
  | 0, _ => false
  | turns + 1, seg =>
    if seg > inm.length then false
    else
      let member := nextListMember inm seg
      let bounds := opaqueBounds inm member.1 member.2.1
      let part := slice inm bounds.1 bounds.2
      -- `*` alone, the whole value: the first member and the last
      if part = ascii "*" ∧ seg = 0 ∧ member.2.2 = inm.length + 1 then true
      else if 0 < part.length ∧ part = want then true
      else etagMatchesFrom want inm turns member.2.2

/-- `etag_matches`. -/
def etagMatches (etag ifNoneMatch : Bytes) : Bool :=
  let trimmed := trimOws etag 0 etag.length
  let want := opaqueBounds etag trimmed.1 trimmed.2
  etagMatchesFrom (slice etag want.1 want.2) ifNoneMatch (ifNoneMatch.length + 1) 0

/-- `stat_etag`. -/
def statEtag (size mtimeNs : Int) : Bytes :=
  ascii "W/\"" ++ intText size ++ ascii "-" ++ intText mtimeNs ++ ascii "\""

/-! ## Ranges -/

/-- The loop of `parse_env_int`; `none` for a byte that is no digit and for a value past `Int.MAX`. -/
def parseEnvIntFrom : Bytes → (result : Int) → Option Int
  | [], result => some result
  | c :: rest, result =>
    if c < ZERO ∨ c > NINE then none
    else
      let digit : Int := c.toNat - ZERO.toNat
      if result > (2 ^ 63 - 1 - digit) / 10 then none else parseEnvIntFrom rest (result * 10 + digit)

/-- `parse_env_int`. -/
def parseEnvInt (raw : Bytes) : Option Int := if raw.isEmpty then none else parseEnvIntFrom raw 0

/-- A `ByteRange` of each kind. -/
inductive ByteRange where
  | none
  | valid (start stop : Int)
  | unsatisfiable
  deriving Repr, DecidableEq

/-- `parse_range` behind the unit: the bounds on either side of the first dash. -/
def parseBounds (lo hi : Bytes) (total : Int) : ByteRange :=
  if lo.isEmpty then
    match parseEnvInt hi with
    | .none => .none
    | some suffix =>
      if suffix ≤ 0 ∨ total = 0 then .unsatisfiable
      else if suffix ≥ total then .valid 0 (total - 1)
      else .valid (total - suffix) (total - 1)
  else
    match parseEnvInt lo with
    | .none => .none
    | some start =>
      if start ≥ total then .unsatisfiable
      else if hi.isEmpty then .valid start (total - 1)
      else
        match parseEnvInt hi with
        | .none => .none
        | some stop =>
          if stop < start then .none else .valid start (if stop ≥ total then total - 1 else stop)

/-- `parse_range`. -/
def parseRange (header : Bytes) (total : Int) : ByteRange :=
  if header.length < 6 ∨ nameIs (header.take 6) (ascii "bytes=") = false then .none
  else
    let spec := header.drop 6
    if spec.contains COMMA then .none
    else
      match spec.findIdx? (· == 0x2D) with
      | .none => .none
      | some dash => parseBounds (spec.take dash) (spec.drop (dash + 1)) total

/-! ## The join -/

abbrev BACKSLASH : UInt8 := 0x5C

/-- The loop of `_safe_join`; `seg` is what has been read of a segment. -/
def joinFrom : Bytes → (seg joined : Bytes) → Option Bytes
  | [], seg, joined =>
    if seg.length = 0 ∨ seg = ascii "." ∨ seg = ascii ".." then none else some (joined ++ SLASH :: seg)
  | c :: rest, seg, joined =>
    if c ≠ SLASH then
      if c = 0 ∨ c = BACKSLASH then none else joinFrom rest (seg ++ [c]) joined
    else if seg.length = 0 ∨ seg = ascii "." ∨ seg = ascii ".." then none
    else joinFrom rest [] (joined ++ SLASH :: seg)

/-- `_safe_join`. -/
def safeJoin (root rel : Bytes) : Option Bytes := joinFrom rel [] root

/-! ## Content types -/

/-- The table of `content_type_for`, in its order. -/
def contentTypes : List (Bytes × Bytes) :=
  [(["html", "htm"], "text/html; charset=utf-8"), (["css"], "text/css; charset=utf-8"),
    (["js", "mjs"], "text/javascript; charset=utf-8"), (["json", "map"], "application/json"),
    (["svg"], "image/svg+xml"), (["png"], "image/png"), (["jpg", "jpeg"], "image/jpeg"),
    (["gif"], "image/gif"), (["webp"], "image/webp"), (["avif"], "image/avif"),
    (["ico"], "image/x-icon"), (["bmp"], "image/bmp"), (["woff2"], "font/woff2"),
    (["woff"], "font/woff"), (["ttf"], "font/ttf"), (["otf"], "font/otf"),
    (["txt"], "text/plain; charset=utf-8"), (["md", "markdown"], "text/markdown; charset=utf-8"),
    (["csv"], "text/csv; charset=utf-8"), (["tsv"], "text/tab-separated-values; charset=utf-8"),
    (["vtt"], "text/vtt; charset=utf-8"), (["ics"], "text/calendar; charset=utf-8"),
    (["xml"], "application/xml"), (["rss"], "application/rss+xml"), (["atom"], "application/atom+xml"),
    (["webmanifest"], "application/manifest+json"), (["jsonld"], "application/ld+json"),
    (["geojson"], "application/geo+json"), (["yaml", "yml"], "application/yaml"),
    (["parquet"], "application/vnd.apache.parquet"), (["mp4", "m4v"], "video/mp4"),
    (["webm"], "video/webm"), (["ogv"], "video/ogg"), (["mov"], "video/quicktime"),
    (["mp3"], "audio/mpeg"), (["m4a"], "audio/mp4"), (["ogg", "oga", "opus"], "audio/ogg"),
    (["wav"], "audio/wav"), (["flac"], "audio/flac"), (["aac"], "audio/aac"),
    (["pdf"], "application/pdf"), (["wasm"], "application/wasm"), (["zip"], "application/zip"),
    (["gz"], "application/gzip")].flatMap fun row => row.1.map fun ext => (ascii ext, ascii row.2)

/-- `content_type_for`; `lower` is the standard library's `String.lower`. -/
def contentTypeFor (lower : Bytes → Bytes) (name : Bytes) : Bytes :=
  if name.contains DOT then
    let ext := lower (name.reverse.takeWhile (· != DOT)).reverse
    ((contentTypes.find? fun row => row.1 == ext).map Prod.snd).getD (ascii "application/octet-stream")
  else ascii "application/octet-stream"

/-! ## The mount -/

/-- What `stat` answers, as far as it is read. -/
structure Stat where
  mode : Nat
  size : Int
  mtimeSec : Int
  mtimeNsec : Int
  deriving Repr, DecidableEq

/-- The system a mount runs on. -/
structure FileSystem where
  /-- `none` where it raises. -/
  stat : Bytes → Option Stat
  /-- `_open_read`: a descriptor, or -1. -/
  openRead : Bytes → Int
  /-- `String.lower`. -/
  lower : Bytes → Bytes

/-- A call of the file system, with its path. -/
inductive FileCall where
  | stat (path : Bytes)
  | openRead (path : Bytes)
  deriving Repr, DecidableEq

def FileCall.path : FileCall → Bytes
  | .stat path => path
  | .openRead path => path

/-- What `serve` answers, and the calls it made for it; no response hands the request on. -/
structure Outcome where
  response : Option FileResponse
  calls : List FileCall

def SVG_SANDBOX_POLICY : Bytes :=
  ascii "default-src 'none'; style-src 'unsafe-inline'; img-src 'self' data:; font-src 'self' data:; sandbox"

/-- `static_headers`. -/
def staticHeaders (extra : Headers) : Headers :=
  (List.range extra.count).foldl
    (fun out i => out.setBytes .packed (extra.nameSpan i) (extra.valueSpan i))
    (Headers.ofList [(ascii "x-content-type-options", ascii "nosniff")])

/-- `_not_found`. -/
def notFound : FileResponse :=
  FileResponse.new (ascii "\x7b\"error\":\"not found\"\x7d")
    (Headers.ofList [(KnownHeader.contentType.name, ascii "application/json")]) 404 (ascii "Not Found")

structure StaticFiles where
  root : Bytes
  urlPrefix : Bytes
  cacheControl : Bytes
  headerNames : List Bytes
  headerValues : List Bytes
  svgPolicy : Bytes

namespace StaticFiles

/-- `while root.byte_length() > 1 and root.endswith("/")`, over the root read backwards. -/
def trimRoot : Bytes → Bytes
  | c :: d :: rest => if c = SLASH then trimRoot (d :: rest) else c :: d :: rest
  | root => root

/-- `StaticFiles(root, prefix, cache_control, headers)`. -/
def new (root urlPrefix cacheControl : Bytes) (headers : Headers) : StaticFiles :=
  let urlPrefix := if urlPrefix.getLast? = some SLASH then urlPrefix else urlPrefix ++ [SLASH]
  let urlPrefix := if urlPrefix.head? = some SLASH then urlPrefix else SLASH :: urlPrefix
  let all := staticHeaders headers
  { root := (trimRoot root.reverse).reverse
    urlPrefix
    cacheControl
    headerNames := (List.range all.count).map all.nameSpan
    headerValues := (List.range all.count).map all.valueSpan
    svgPolicy := if all.contains (ascii "content-security-policy") then [] else SVG_SANDBOX_POLICY }

variable (fs : FileSystem) (sf : StaticFiles)

/-- `_for_the_file`. -/
def forTheFile (resp : FileResponse) (rel : Bytes) : FileResponse :=
  let resp :=
    if sf.cacheControl.length > 0 then resp.setHeader (ascii "cache-control") sf.cacheControl else resp
  if sf.svgPolicy.length > 0 && (ascii "image/svg+xml").isPrefixOf (contentTypeFor fs.lower rel) then
    resp.setHeader (ascii "content-security-policy") sf.svgPolicy
  else resp

/-- A 200 or a 206: the file is opened, and its bytes from `offset` on are the body. -/
def openFile (fsPath rel etag : Bytes) (contentRange : List (Bytes × Bytes)) (statusCode : Int)
    (statusText : Bytes) (offset length : Int) (calls : List FileCall) : Outcome :=
  let calls := calls ++ [FileCall.openRead fsPath]
  let fd := fs.openRead fsPath
  if fd < 0 then ⟨some notFound, calls⟩
  else
    let headers := Headers.ofList ([(KnownHeader.contentType.name, contentTypeFor fs.lower rel),
      (ascii "etag", etag), (ascii "Accept-Ranges", ascii "bytes")] ++ contentRange)
    let resp := (FileResponse.new [] headers statusCode statusText).setFileBody fd offset length
    ⟨some (sf.forTheFile fs resp rel), calls⟩

/-- `_answer` for a regular file that `stat` knows. -/
def answerFile (req : HTTPRequest) (fsPath rel : Bytes) (total : Int) (etag : Bytes)
    (calls : List FileCall) : Outcome :=
  if req.method ≠ ascii "GET" ∧ req.method ≠ ascii "HEAD" then
    ⟨some (FileResponse.new (ascii "\x7b\"error\":\"method not allowed\"\x7d")
      (Headers.ofList [(KnownHeader.contentType.name, ascii "application/json"),
        (ascii "Allow", ascii "GET, HEAD")]) 405 (ascii "Method Not Allowed")), calls⟩
  else if (req.headers.get (ascii "if-none-match")).any (etagMatches etag) then
    let notModified := FileResponse.new [] (Headers.ofList [(ascii "etag", etag)]) 304 (ascii "Not Modified")
    ⟨some (sf.forTheFile fs notModified rel), calls⟩
  else
    -- a range is a GET's alone, and none behind an `If-Range`
    let range := match req.headers.get (ascii "range") with
      | some rangeHdr =>
        if req.method = ascii "GET" ∧ req.headers.get (ascii "if-range") = none then
          parseRange rangeHdr total
        else .none
      | none => .none
    match range with
    | .unsatisfiable =>
      ⟨some (FileResponse.new [] (Headers.ofList
        [(ascii "Content-Range", ascii "bytes */" ++ intText total), (ascii "etag", etag)]) 416
        (ascii "Range Not Satisfiable")), calls⟩
    | .valid start stop =>
      sf.openFile fs fsPath rel etag
        [(ascii "Content-Range", ascii "bytes " ++ intText start ++ ascii "-" ++ intText stop ++
          ascii "/" ++ intText total)] 206 (ascii "Partial Content") start (stop - start + 1) calls
    | .none => sf.openFile fs fsPath rel etag [] 200 (ascii "OK") 0 total calls

/-- What of the path is under the mount: the name of a file, a directory's index. -/
def relativePath (path : Bytes) : Option Bytes :=
  let path := if path = sf.urlPrefix.dropLast then sf.urlPrefix else path
  if !sf.urlPrefix.isPrefixOf path then none
  else
    let rel := path.drop sf.urlPrefix.length
    some (if rel.length = 0 ∨ rel.getLast? = some SLASH then rel ++ ascii "index.html" else rel)

def S_IFMT : Nat := 0o170000
def S_IFREG : Nat := 0o100000

/-- `_answer`. -/
def answer (req : HTTPRequest) : Outcome :=
  match sf.relativePath req.uri.path with
  | none => ⟨none, []⟩
  | some rel =>
    match safeJoin sf.root rel with
    | none => ⟨some notFound, []⟩
    | some fsPath =>
      let calls := [FileCall.stat fsPath]
      match fs.stat fsPath with
      | none => ⟨none, calls⟩
      | some st =>
        if st.mode &&& S_IFMT ≠ S_IFREG then ⟨none, calls⟩
        else
          let etag := statEtag st.size (st.mtimeSec * 1000000000 + st.mtimeNsec)
          sf.answerFile fs req fsPath rel st.size etag calls

/-- The headers of the mount that the answer does not carry already. -/
def addHeaders (resp : FileResponse) : FileResponse :=
  (sf.headerNames.zip sf.headerValues).foldl
    (fun resp header =>
      if resp.headers.contains header.1 then resp else resp.setHeader header.1 header.2)
    resp

/-- `serve`. -/
def serve (req : HTTPRequest) : Outcome :=
  let out := sf.answer fs req
  { out with response := out.response.map sf.addHeaders }

end StaticFiles

/-! ## The segments of a path -/

/-- A segment that names something in the directory it is looked up in. -/
def SafeSegment (seg : Bytes) : Prop :=
  seg ≠ [] ∧ seg ≠ ascii "." ∧ seg ≠ ascii ".." ∧ ∀ c ∈ seg, c ≠ SLASH ∧ c ≠ 0 ∧ c ≠ BACKSLASH

instance (seg : Bytes) : Decidable (SafeSegment seg) := by
  unfold SafeSegment
  infer_instance

/-- The root, then each segment behind a slash. -/
def under (root : Bytes) (segs : List Bytes) : Bytes := root ++ segs.flatMap (SLASH :: ·)

/-- A byte that is no separator is in one of the parts. -/
theorem exists_mem_splitOn {c sep : UInt8} {t : Bytes} (h : c ∈ t) (hne : c ≠ sep) :
    ∃ s ∈ t.splitOn sep, c ∈ s := by
  induction t with
  | nil => cases h
  | cons d t ih =>
    have hparts := List.splitOn_ne_nil sep t
    rw [List.splitOn_cons_eq_if_modifyHead]
    obtain ⟨part, parts, hsplit⟩ := List.exists_cons_of_ne_nil hparts
    rw [hsplit] at ih ⊢
    split
    · next hd =>
      -- the separator itself is in no part
      rcases List.mem_cons.mp h with rfl | hmem
      · exact absurd (beq_iff_eq.mp hd) hne
      · obtain ⟨s, hs, hc⟩ := ih hmem
        exact ⟨s, List.mem_cons_of_mem _ hs, hc⟩
    · rw [List.modifyHead_cons]
      rcases List.mem_cons.mp h with rfl | hmem
      · exact ⟨c :: part, List.mem_cons_self, List.mem_cons_self⟩
      · obtain ⟨s, hs, hc⟩ := ih hmem
        rcases List.mem_cons.mp hs with rfl | hs
        · exact ⟨d :: s, List.mem_cons_self, List.mem_cons_of_mem _ hc⟩
        · exact ⟨s, List.mem_cons_of_mem _ hs, hc⟩

/-- What of a segment has been read holds nothing that ends or forbids it. -/
def InSegment (seg : Bytes) : Prop := ∀ c ∈ seg, c ≠ SLASH ∧ c ≠ 0 ∧ c ≠ BACKSLASH

theorem InSegment.safe_iff {seg : Bytes} (h : InSegment seg) :
    SafeSegment seg ↔ ¬ (seg.length = 0 ∨ seg = ascii "." ∨ seg = ascii "..") := by
  rw [not_or, not_or, List.length_eq_zero_iff]
  constructor
  · intro hsafe
    exact ⟨hsafe.1, hsafe.2.1, hsafe.2.2.1⟩
  · rintro ⟨hne, hdot, hdots⟩
    exact ⟨hne, hdot, hdots, h⟩

theorem joinFrom_eq (t seg joined : Bytes) (hseg : InSegment seg) :
    joinFrom t seg joined =
      if ∀ s ∈ (seg ++ t).splitOn SLASH, SafeSegment s then
        some (under joined ((seg ++ t).splitOn SLASH)) else none := by
  have hslash : ∀ {u : Bytes}, InSegment u → SLASH ∉ u := fun hu hmem => (hu SLASH hmem).1 rfl
  induction t generalizing seg joined with
  | nil =>
    rw [List.append_nil, List.splitOn_eq_singleton (hslash hseg)]
    simp only [joinFrom, List.mem_singleton, forall_eq, hseg.safe_iff, ite_not, under,
      List.flatMap_cons, List.flatMap_nil, List.append_nil]
  | cons c rest ih =>
    rw [joinFrom]
    by_cases hc : c = SLASH
    · -- a slash ends the segment, and the rest starts a new one
      rw [if_neg (not_not.mpr hc), hc, List.splitOn_append_cons_self_of_not_mem (hslash hseg),
        ih [] (joined ++ SLASH :: seg) (List.forall_mem_nil _), List.nil_append]
      simp only [List.forall_mem_cons, hseg.safe_iff]
      by_cases hbad : seg.length = 0 ∨ seg = ascii "." ∨ seg = ascii ".."
      · rw [if_pos hbad, if_neg fun hall => hall.1 hbad]
      · rw [if_neg hbad]
        simp only [hbad, not_false_eq_true, true_and, under, List.flatMap_cons, List.append_assoc,
          List.cons_append]
    · rw [if_pos hc]
      by_cases hbad : c = 0 ∨ c = BACKSLASH
      · -- a byte no segment may hold
        obtain ⟨s, hs, hmem⟩ := exists_mem_splitOn (show c ∈ seg ++ c :: rest by simp) hc
        rw [if_pos hbad, if_neg]
        intro hall
        have hsafe := (hall s hs).2.2.2 c hmem
        exact hbad.elim hsafe.2.1 hsafe.2.2
      · rw [not_or] at hbad
        have hseg' : InSegment (seg ++ [c]) := by
          intro d hd
          rcases List.mem_append.mp hd with hd | hd
          · exact hseg d hd
          · rw [List.mem_singleton.mp hd]
            exact ⟨hc, hbad.1, hbad.2⟩
        rw [if_neg (not_or.mpr hbad), ih (seg ++ [c]) joined hseg', List.append_assoc,
          List.singleton_append]

/-- **The join.** -/
theorem safeJoin_eq (root rel : Bytes) :
    safeJoin root rel =
      if ∀ s ∈ rel.splitOn SLASH, SafeSegment s then some (under root (rel.splitOn SLASH)) else none :=
  joinFrom_eq rel [] root (List.forall_mem_nil _)

namespace StaticFiles

/-! ## What an answer keeps of a response -/

variable (fs : FileSystem) (sf : StaticFiles)

@[simp] theorem bodyFd_setHeader (r : FileResponse) (name value : Bytes) :
    (r.setHeader name value).bodyFd = r.bodyFd := rfl

@[simp] theorem statusCode_setHeader (r : FileResponse) (name value : Bytes) :
    (r.setHeader name value).statusCode = r.statusCode := rfl

theorem addHeaders_keeps (r : FileResponse) :
    (sf.addHeaders r).bodyFd = r.bodyFd ∧ (sf.addHeaders r).statusCode = r.statusCode := by
  unfold addHeaders
  induction sf.headerNames.zip sf.headerValues generalizing r with
  | nil => exact ⟨rfl, rfl⟩
  | cons header headers ih =>
    rw [List.foldl_cons]
    split
    · exact ih r
    · exact ih _

theorem bodyFd_forTheFile (r : FileResponse) (rel : Bytes) : (sf.forTheFile fs r rel).bodyFd = r.bodyFd := by
  unfold forTheFile
  dsimp only
  split <;> split <;> rfl

/-- What an answer about a regular file did: the calls before it, then at most one open of the same
path, whose descriptor is the body. -/
structure OpensOnly (fsPath : Bytes) (calls : List FileCall) (out : Outcome) : Prop where
  made : out.calls = calls ∨ out.calls = calls ++ [FileCall.openRead fsPath]
  body : ∀ resp, out.response = some resp → resp.bodyFd = -1 ∨
    (out.calls = calls ++ [FileCall.openRead fsPath] ∧ resp.bodyFd = fs.openRead fsPath)

theorem openFile_opens (fsPath rel etag : Bytes) (contentRange : List (Bytes × Bytes)) (statusCode : Int)
    (statusText : Bytes) (offset length : Int) (calls : List FileCall) :
    OpensOnly fs fsPath calls
      (sf.openFile fs fsPath rel etag contentRange statusCode statusText offset length calls) := by
  unfold openFile
  dsimp only
  split
  · refine ⟨Or.inr rfl, ?_⟩
    intro resp hresp
    cases hresp
    exact Or.inl rfl
  · refine ⟨Or.inr rfl, ?_⟩
    intro resp hresp
    cases hresp
    exact Or.inr ⟨rfl, bodyFd_forTheFile fs sf _ rel⟩

theorem answerFile_opens (req : HTTPRequest) (fsPath rel : Bytes) (total : Int) (etag : Bytes)
    (calls : List FileCall) :
    OpensOnly fs fsPath calls (sf.answerFile fs req fsPath rel total etag calls) := by
  -- an answer without the file: no call more, and no descriptor
  have hwithout : ∀ resp : FileResponse, resp.bodyFd = -1 → OpensOnly fs fsPath calls ⟨some resp, calls⟩ := by
    intro resp hfd
    refine ⟨Or.inl rfl, ?_⟩
    intro resp' hresp
    cases hresp
    exact Or.inl hfd
  unfold answerFile
  split
  · exact hwithout _ rfl
  · split
    · exact hwithout _ (bodyFd_forTheFile fs sf _ rel)
    · dsimp only
      split
      · exact hwithout _ rfl
      · apply openFile_opens
      · apply openFile_opens

/-! ## Under the root -/

/-- What a request for `path` comes to: it is not the mount's, it is refused, or its segments are
looked up under the root. -/
inductive Confined (path : Bytes) (out : Outcome) : Prop where
  | declined (hpath : sf.relativePath path = none) (hout : out.response = none) (hcalls : out.calls = [])
  | refused (rel : Bytes) (hpath : sf.relativePath path = some rel)
      (hrefused : ∃ s ∈ rel.splitOn SLASH, ¬ SafeSegment s)
      (hout : ∃ resp, out.response = some resp ∧ resp.statusCode = 404 ∧ resp.bodyFd = -1)
      (hcalls : out.calls = [])
  | reached (rel : Bytes) (hpath : sf.relativePath path = some rel)
      (hsafe : ∀ s ∈ rel.splitOn SLASH, SafeSegment s)
      (hcalls : out.calls = [.stat (under sf.root (rel.splitOn SLASH))] ∨
        out.calls = [.stat (under sf.root (rel.splitOn SLASH)),
          .openRead (under sf.root (rel.splitOn SLASH))])
      (hbody : ∀ resp, out.response = some resp → resp.bodyFd = -1 ∨
        (.openRead (under sf.root (rel.splitOn SLASH)) ∈ out.calls ∧
          resp.bodyFd = fs.openRead (under sf.root (rel.splitOn SLASH))))

theorem answer_confined (req : HTTPRequest) : Confined fs sf req.uri.path (sf.answer fs req) := by
  unfold answer
  cases hrel : sf.relativePath req.uri.path with
  | none => exact Confined.declined hrel rfl rfl
  | some rel =>
    dsimp only
    rw [safeJoin_eq]
    by_cases hsafe : ∀ s ∈ rel.splitOn SLASH, SafeSegment s
    · rw [if_pos hsafe]
      dsimp only
      -- a miss: the path was asked about, and nothing is answered
      have hmiss : Confined fs sf req.uri.path
          ⟨none, [FileCall.stat (under sf.root (rel.splitOn SLASH))]⟩ := by
        apply Confined.reached rel hrel hsafe (Or.inl rfl)
        intro resp hresp
        cases hresp
      split
      · exact hmiss
      · split
        · exact hmiss
        · next st _ _ =>
          obtain ⟨hcalls, hbody⟩ := sf.answerFile_opens fs req (under sf.root (rel.splitOn SLASH)) rel
            st.size (statEtag st.size (st.mtimeSec * 1000000000 + st.mtimeNsec))
            [FileCall.stat (under sf.root (rel.splitOn SLASH))]
          apply Confined.reached rel hrel hsafe hcalls
          intro resp hresp
          rcases hbody resp hresp with hfd | ⟨hopened, hfd⟩
          · exact Or.inl hfd
          · apply Or.inr
            refine ⟨?_, hfd⟩
            rw [hopened]
            exact List.mem_append_right _ List.mem_cons_self
    · rw [if_neg hsafe]
      push Not at hsafe
      exact Confined.refused rel hrel hsafe ⟨notFound, rfl, rfl, rfl⟩ rfl

/-- The mount's headers change neither the descriptor nor the status. -/
theorem Confined.map_addHeaders {path : Bytes} {out : Outcome} (h : Confined fs sf path out) :
    Confined fs sf path { out with response := out.response.map sf.addHeaders } := by
  cases h with
  | declined hpath hout hcalls =>
    refine Confined.declined hpath ?_ hcalls
    rw [hout]
    rfl
  | refused rel hpath hrefused hout hcalls =>
    obtain ⟨resp, hresp, hstatus, hfd⟩ := hout
    obtain ⟨hfd', hstatus'⟩ := sf.addHeaders_keeps resp
    refine Confined.refused rel hpath hrefused ?_ hcalls
    refine ⟨sf.addHeaders resp, ?_, hstatus'.trans hstatus, hfd'.trans hfd⟩
    rw [hresp]
    rfl
  | reached rel hpath hsafe hcalls hbody =>
    refine Confined.reached rel hpath hsafe hcalls ?_
    intro resp hresp
    obtain ⟨resp', hresp', rfl⟩ := Option.map_eq_some_iff.mp hresp
    rw [(sf.addHeaders_keeps resp').1]
    exact hbody resp' hresp'

/-- Only slashes are cut off the root. -/
theorem trimRoot_spec (root : Bytes) : ∃ n, root = List.replicate n SLASH ++ trimRoot root := by
  induction root with
  | nil => exact ⟨0, rfl⟩
  | cons c root ih =>
    cases root with
    | nil => exact ⟨0, rfl⟩
    | cons d rest =>
      rw [trimRoot]
      split
      · next hc =>
        obtain ⟨n, hn⟩ := ih
        refine ⟨n + 1, ?_⟩
        rw [List.replicate_succ, List.cons_append, ← hn, hc]
      · exact ⟨0, rfl⟩

/-- **Static serving never leaves its root.** Whatever the target held, a request is declined,
refused, or its file is asked about and opened at the root followed by segments none of which is
empty, `.` or `..` and none of which holds a slash, a backslash or a NUL. -/
theorem serve_stays_under_root (root urlPrefix cacheControl : Bytes) (headers : Headers)
    (serverHost : Bytes) (serverPort : Option UInt16) (parsed : ParsedRequestHeaders)
    (maxUriLength : Nat) {req : HTTPRequest}
    (h : HTTPRequest.fromParsed serverHost serverPort parsed maxUriLength = .ok req) :
    let sf := StaticFiles.new root urlPrefix cacheControl headers
    (∃ n, root = sf.root ++ List.replicate n SLASH) ∧
      HTTPRequest.targetUri serverHost serverPort parsed.path = .ok req.uri ∧
      Confined fs sf req.uri.path (sf.serve fs req) := by
  intro sf
  refine ⟨?_, ?_, (answer_confined fs sf req).map_addHeaders⟩
  · obtain ⟨n, hn⟩ := trimRoot_spec root.reverse
    refine ⟨n, ?_⟩
    have hrev := congrArg List.reverse hn
    rw [List.reverse_reverse, List.reverse_append, List.reverse_replicate] at hrev
    exact hrev
  · unfold HTTPRequest.fromParsed at h
    split at h
    · cases h
    · cases huri : HTTPRequest.targetUri serverHost serverPort parsed.path with
      | error e =>
        rw [huri] at h
        cases h
      | ok uri =>
        rw [huri] at h
        cases h
        rfl

/-- A directory of one file. -/
def oneFile : FileSystem where
  stat path := if path = ascii "/srv/a%2Fb.txt" then some ⟨0o100644, 3, 0, 0⟩ else none
  openRead path := if path = ascii "/srv/a%2Fb.txt" then 7 else -1
  lower := asciiLowercase

/-- A GET for a file whose name holds an encoded slash. -/
def escapedTarget : ParsedRequestHeaders where
  method := ascii "GET"
  path := ascii "/static/%61%2fb.txt"
  protocol := strHttp11
  headers := Headers.empty
  cookies := []
  bytesConsumed := 0

/-- The encoded slash stays one segment's, and the file is opened. -/
theorem serve_escaped_under_root :
    ∃ req, HTTPRequest.fromParsed [] none escapedTarget 100 = .ok req ∧
      req.uri.path = ascii "/static/a%2Fb.txt" ∧
      ((StaticFiles.new (ascii "/srv/") (ascii "static") [] Headers.empty).serve oneFile req).calls =
        [.stat (ascii "/srv/a%2Fb.txt"), .openRead (ascii "/srv/a%2Fb.txt")] ∧
      Confined oneFile (StaticFiles.new (ascii "/srv/") (ascii "static") [] Headers.empty) req.uri.path
        ((StaticFiles.new (ascii "/srv/") (ascii "static") [] Headers.empty).serve oneFile req) := by
  refine ⟨_, rfl, by decide, by decide, ?_⟩
  exact (serve_stays_under_root oneFile (ascii "/srv/") (ascii "static") [] Headers.empty [] none
    escapedTarget 100 rfl).2.2

end StaticFiles

end MojoHttp
