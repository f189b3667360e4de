import MojoHttp.Cookie.ResponseJar
import MojoHttp.Header.Store
import MojoHttp.Http.Date

/-!
# Responses (`http/response.mojo`)

What of an `HTTPResponse` goes on the wire, and the encoder of its head.

* **`HTTPResponse.encodeInto`** — the head, then the body.
* **`encodeHead_eq`** — the head is the status line, the fields kept, the cookies kept, each on a
  line, and an empty line.
* **`response_head_not_split`** — so nothing the application gives can add a line to it.
-/

namespace MojoHttp

open CrlfText

def strHttp11 : Bytes := ascii "HTTP/1.1"

structure HTTPResponse where
  headers : Headers
  cookies : ResponseCookieJar
  bodyRaw : Bytes
  statusCode : Int
  statusText : Bytes
  protocol : Bytes

/-- `Headers.write_latin1_to`: what it writes. -/
def Headers.writeLatin1To (h : Headers) : Bytes :=
  (List.range h.count).flatMap fun i =>
    let name := h.nameSpan i
    let value := h.valueSpan i
    if headerValueKind value = HEADER_VALUE_BREAKS ∨ spanBreaksHeaderLine name then []
    else latin1HeaderLine name value

namespace HTTPResponse

/-- The head `encode_into` writes. -/
def encodeHead (clock : Clock) (r : HTTPResponse) : Bytes :=
  r.protocol ++ ascii " " ++ intText r.statusCode ++ ascii " " ++
    (if !spanBreaksHeaderLine r.statusText then r.statusText else []) ++ crlf ++
    (if (r.headers.knownIndex .server).isNone then ascii "server: mojo-http" ++ crlf else []) ++
    (if (r.headers.knownIndex .date).isNone then
      ascii "date" ++ ascii ": " ++ httpDateNow clock ++ crlf
    else []) ++
    r.headers.writeLatin1To ++ r.cookies.writeLatin1To ++ crlf

/-- `encode_into`. -/
def encodeInto (clock : Clock) (r : HTTPResponse) : Bytes := r.encodeHead clock ++ r.bodyRaw

/-! ## The lines of a head -/

/-- The status line: a reason phrase that breaks it goes out as the empty phrase. -/
def statusLine (r : HTTPResponse) : Bytes :=
  r.protocol ++ (ascii " " ++ (intText r.statusCode ++ (ascii " " ++
    if Clean r.statusText then r.statusText else [])))

/-- The headers of the head: the two every response has, where the application set none, then
the application's. -/
def fields (clock : Clock) (r : HTTPResponse) : List (Bytes × Bytes) :=
  (if (r.headers.knownIndex .server).isNone then [(ascii "server", ascii "mojo-http")] else []) ++
    (if (r.headers.knownIndex .date).isNone then [(ascii "date", httpDateNow clock)] else []) ++
    (List.range r.headers.count).map fun i => (r.headers.nameSpan i, r.headers.valueSpan i)

/-- A header is kept when neither its name nor its value holds CR, LF or NUL. -/
def isKept (field : Bytes × Bytes) : Bool := decide (Clean field.1 ∧ Clean field.2)

/-- The lines of the head before its empty line. -/
def headLines (clock : Clock) (r : HTTPResponse) : List Bytes :=
  r.statusLine :: ((((r.fields clock).filter isKept).map fun f => fieldLine f.1 f.2) ++
    r.cookies.kept.map (fieldLine (ascii "set-cookie")))

end HTTPResponse

theorem spanBreaksHeaderLine_iff {s : Bytes} : spanBreaksHeaderLine s = true ↔ ¬ Clean s := by
  rw [spanBreaksHeaderLine_eq, decide_eq_true_iff, clean_iff_kindOf, not_not]

theorem Clean.append {a b : Bytes} (ha : Clean a) (hb : Clean b) : Clean (a ++ b) :=
  List.forall_mem_append.mpr ⟨ha, hb⟩

theorem Clean.isLine {s : Bytes} (h : Clean s) : IsLine s :=
  ⟨fun hmem => absurd (h _ hmem) (by decide), fun hmem => absurd (h _ hmem) (by decide)⟩

/-- **One line for each header that is kept.** -/
theorem Headers.writeLatin1To_eq (h : Headers) :
    h.writeLatin1To =
      unlines ((((List.range h.count).map fun i => (h.nameSpan i, h.valueSpan i)).filter
        HTTPResponse.isKept).map fun f => fieldLine f.1 f.2) := by
  unfold Headers.writeLatin1To
  induction List.range h.count with
  | nil => rfl
  | cons i is ih =>
    rw [List.flatMap_cons, ih, List.map_cons]
    dsimp only
    have hdropped : headerValueKind (h.valueSpan i) = HEADER_VALUE_BREAKS ∨
        spanBreaksHeaderLine (h.nameSpan i) = true ↔
          ¬ (Clean (h.nameSpan i) ∧ Clean (h.valueSpan i)) := by
      rw [not_and_or, spanBreaksHeaderLine_iff, headerValueKind_eq, clean_iff_kindOf (s := h.valueSpan i),
        not_not, or_comm]
    rw [latin1HeaderLine_eq]
    by_cases hkept : Clean (h.nameSpan i) ∧ Clean (h.valueSpan i)
    · rw [if_neg (fun hd => hdropped.mp hd hkept), if_pos hkept.2,
        List.filter_cons_of_pos (by simpa [HTTPResponse.isKept] using hkept)]
      rfl
    · rw [if_pos (hdropped.mpr hkept),
        List.filter_cons_of_neg (by simpa [HTTPResponse.isKept] using hkept)]
      rfl

/-- **The head is its lines.** -/
theorem encodeHead_eq (clock : Clock) (r : HTTPResponse) :
    r.encodeHead clock = unlines (r.headLines clock ++ [[]]) := by
  have hdate := printable_httpDateNow clock
  -- the two headers every response has are kept, and go out as they are
  have hserver : unlines (((if (r.headers.knownIndex .server).isNone then
      [(ascii "server", ascii "mojo-http")] else []).filter HTTPResponse.isKept).map
        fun f => fieldLine f.1 f.2) =
      if (r.headers.knownIndex .server).isNone then ascii "server: mojo-http" ++ crlf else [] := by
    cases (r.headers.knownIndex .server).isNone with
    | true => decide
    | false => rfl
  have hdateLine : unlines (((if (r.headers.knownIndex .date).isNone then
      [(ascii "date", httpDateNow clock)] else []).filter HTTPResponse.isKept).map
        fun f => fieldLine f.1 f.2) =
      if (r.headers.knownIndex .date).isNone then
        ascii "date" ++ ascii ": " ++ httpDateNow clock ++ crlf else [] := by
    cases (r.headers.knownIndex .date).isNone with
    | true =>
      have hkept : HTTPResponse.isKept (ascii "date", httpDateNow clock) = true :=
        decide_eq_true ⟨(by decide : Clean (ascii "date")), hdate.clean⟩
      rw [if_pos rfl, if_pos rfl, List.filter_cons_of_pos hkept]
      show fieldLine _ _ ++ crlf ++ [] = _
      rw [fieldLine, encodeLatin1HeaderValue_ascii hdate.lt]
      simp only [List.append_assoc, List.append_nil]
    | false => rfl
  have hstatus : (if !spanBreaksHeaderLine r.statusText then r.statusText else []) =
      if Clean r.statusText then r.statusText else [] := by
    refine if_congr ?_ rfl rfl
    rw [Bool.not_eq_true', ← Bool.not_eq_true, spanBreaksHeaderLine_iff, not_not]
  unfold HTTPResponse.encodeHead HTTPResponse.headLines HTTPResponse.fields HTTPResponse.statusLine
  rw [List.filter_append, List.filter_append, List.map_append, List.map_append, List.cons_append,
    unlines_cons, unlines_append, unlines_append, unlines_append, unlines_append, hserver, hdateLine,
    hstatus, ← Headers.writeLatin1To_eq, ← ResponseCookieJar.writeLatin1To_eq]
  simp only [List.append_assoc]
  rfl

/-- Every line of the head is clean, and none before the empty one is empty. -/
theorem headLines_clean {r : HTTPResponse} (hp : r.protocol = strHttp11) (clock : Clock) :
    ∀ l ∈ r.headLines clock, Clean l ∧ l ≠ [] := by
  have hfield : ∀ name value, Clean name → Clean value →
      Clean (fieldLine name value) ∧ fieldLine name value ≠ [] := by
    intro name value hname hvalue
    refine ⟨hname.append (Clean.append (by decide)
      (encodeLatin1HeaderValue_clean hvalue)), ?_⟩
    unfold fieldLine
    exact List.append_ne_nil_of_right_ne_nil _ (List.append_ne_nil_of_left_ne_nil (by decide) _)
  intro l hl
  unfold HTTPResponse.headLines at hl
  rcases List.mem_cons.mp hl with rfl | hl
  · have htext : Clean (if Clean r.statusText then r.statusText else []) := by
      split
      · assumption
      · exact List.forall_mem_nil _
    have hspace : Clean (ascii " ") := by decide
    unfold HTTPResponse.statusLine
    rw [hp]
    exact ⟨Clean.append (by decide) (hspace.append
      ((printable_intText _).clean.append (hspace.append htext))),
      List.append_ne_nil_of_left_ne_nil (by decide) _⟩
  · rcases List.mem_append.mp hl with hl | hl
    · obtain ⟨f, hf, rfl⟩ := List.mem_map.mp hl
      have hkept := of_decide_eq_true (List.mem_filter.mp hf).2
      exact hfield f.1 f.2 hkept.1 hkept.2
    · obtain ⟨v, hv, rfl⟩ := List.mem_map.mp hl
      exact hfield _ v (by decide) (of_decide_eq_true (List.mem_filter.mp hv).2)

/-- **A response head cannot be split.** Whatever bytes stand in the status text, in header names
and values and in cookies, the head of an HTTP/1.1 response, split at CR LF, is the status line,
one line for each header kept, one for each cookie kept and the empty line. No line holds a CR, an
LF or a NUL, and the first CR LF CR LF of the output ends the head. -/
theorem response_head_not_split (clock : Clock) (r : HTTPResponse)
    (hp : r.protocol = strHttp11) :
    lines (r.encodeHead clock) =
        [r.statusLine] ++ ((r.fields clock).filter HTTPResponse.isKept).map
          (fun f => fieldLine f.1 f.2) ++ r.cookies.kept.map (fieldLine (ascii "set-cookie")) ++
        [[]] ∧
      r.encodeHead clock = unlines (lines (r.encodeHead clock)) ∧
      (∀ l ∈ lines (r.encodeHead clock), Clean l) ∧
      r.encodeInto clock = r.encodeHead clock ++ r.bodyRaw ∧
      EmptyLineEndsAt (r.encodeInto clock) (r.encodeHead clock).length := by
  have hclean := headLines_clean hp clock
  have hall : ∀ l ∈ r.headLines clock ++ [[]], Clean l := by
    intro l hl
    rcases List.mem_append.mp hl with hl | hl
    · exact (hclean l hl).1
    · rw [List.mem_singleton.mp hl]
      exact List.forall_mem_nil _
  have hhead := encodeHead_eq clock r
  have hlines : lines (r.encodeHead clock) = r.headLines clock ++ [[]] := by
    rw [hhead]
    exact lines_unlines fun l hl => (hall l hl).isLine
  refine ⟨?_, ?_, ?_, rfl, ?_⟩
  · rw [hlines]
    simp only [HTTPResponse.headLines, List.cons_append, List.nil_append]
  · rw [hlines]
    exact hhead
  · rw [hlines]
    exact hall
  · have hend := @emptyLineEndsAt_block r.statusLine _
      (fun l hl => ⟨(hclean l hl).1.isLine, (hclean l hl).2⟩) r.bodyRaw
    have hlen : (r.encodeHead clock).length = (unlines (r.headLines clock)).length + 2 := by
      rw [hhead, unlines_append, List.length_append]
      rfl
    rw [hlen, HTTPResponse.encodeInto, hhead, unlines_append, List.append_assoc]
    exact hend

/-- A view that puts a line end into its reason phrase, one of its headers and one of its
cookies. -/
def injectedResponse : HTTPResponse where
  headers := (Headers.empty.setBytes .packed (ascii "X-Name") (ascii "ok")).setBytes .packed
    (ascii "Location") (ascii "/" ++ crlf ++ ascii "Set-Cookie: a=b")
  cookies := (ResponseCookieJar.empty.addRaw (ascii "a=1")).addRaw (ascii "b=2" ++ crlf ++ ascii "x: y")
  bodyRaw := ascii "hi"
  statusCode := 200
  statusText := ascii "OK" ++ crlf ++ ascii "X: y"
  protocol := strHttp11

/-- The phrase is emptied; the header and the cookie are left out. -/
theorem injected_response_lines :
    lines (injectedResponse.encodeHead ⟨0, fun _ => none⟩) =
      [ascii "HTTP/1.1 200 ", ascii "server: mojo-http", ascii "date: Thu, 01 Jan 1970 00:00:00 GMT",
        ascii "x-name: ok", ascii "set-cookie: a=1", []] :=
  (response_head_not_split ⟨0, fun _ => none⟩ injectedResponse rfl).1.trans (by decide)

end MojoHttp
