import MojoHttp.Json.Escape

/-!
# The HTML builder (`html.mojo`) and the escaper it writes through (`html_escape.mojo`)

A call appends bytes to the buffer, or raises and appends none. `raw` and `raw_attrs` take markup as it is and are
left out; the expression tier, which uses them on what it has rendered itself, is `Markup`.

* **`Page`** — what the calls name: start tags with their attributes, text and end tags, in order.
* **`build_eq`** — the buffer spells the page.
* **`Markup.renderAll_eq`** — an expression renders to what the builder's calls would build.
-/

namespace MojoHttp

/-! ## `html_escape.mojo` -/

/-- What `escape_html_into` appends for a byte. -/
def htmlEscapeOf (c : UInt8) : Bytes :=
  if c == 0x26 then ascii "&amp;"
  else if c == 0x3C then ascii "&lt;"
  else if c == 0x3E then ascii "&gt;"
  else if c == 0x22 then ascii "&quot;"
  else if c == 0x27 then ascii "&#x27;"
  else [c]

/-- `escape_html_into`. -/
def escapeHtmlInto (out s : Bytes) : Bytes := s.foldl (fun out c => out ++ htmlEscapeOf c) out

theorem escapeHtmlInto_eq (out s : Bytes) : escapeHtmlInto out s = out ++ s.flatMap htmlEscapeOf := by
  unfold escapeHtmlInto
  induction s generalizing out with
  | nil => simp
  | cons c s ih => rw [List.foldl_cons, ih, List.flatMap_cons, List.append_assoc]

/-! ## The builder -/

namespace HtmlByte

abbrev _LT : UInt8 := 60
abbrev _GT : UInt8 := 62
abbrev _SPACE : UInt8 := 32
abbrev _QUOTE : UInt8 := 34
abbrev _EQ : UInt8 := 61
abbrev _SLASH : UInt8 := 47

end HtmlByte

open HtmlByte

/-- An em dash, as the errors write it. -/
def emDash : Bytes := [0xE2, 0x80, 0x94]

inductive ElementKind
  | other
  | form
  | field
  | link
  deriving Repr, DecidableEq

/-- `_kind_of`. -/
def Html.kindOf (tag : Bytes) : ElementKind :=
  if tag == ascii "form" then .form
  else if tag == ascii "input" || tag == ascii "textarea" || tag == ascii "select" then .field
  else if tag == ascii "a" || tag == ascii "button" then .link
  else .other

structure Html where
  buf : Bytes
  isOpen : Bool
  openKind : ElementKind
  deriving Repr, DecidableEq

/-- What a call leaves, and the error it raised. -/
abbrev HtmlCall := Html × Option Bytes

namespace Html

def new : Html := ⟨[], false, .other⟩

/-- `_end_tag`. -/
def endTag (h : Html) : Html := if h.isOpen then { h with buf := h.buf ++ [_GT], isOpen := false } else h

/-- `open`. -/
def openTag (h : Html) (tag : Bytes) : Html := ⟨h.endTag.buf ++ [_LT] ++ tag, true, Html.kindOf tag⟩

/-- ` name="value"`, as `attr` appends it in both tiers. -/
def attrInto (buf name value : Bytes) : Bytes :=
  escapeHtmlInto (buf ++ [_SPACE] ++ name ++ [_EQ] ++ [_QUOTE]) value ++ [_QUOTE]

def attr (h : Html) (name value : Bytes) : HtmlCall :=
  if !h.isOpen then
    (h, some (ascii "Html.attr(\"" ++ name ++ ascii "\"): no start tag is open " ++ emDash ++
      ascii " call open(tag) first"))
  else ({ h with buf := attrInto h.buf name value }, none)

def flag (h : Html) (name : Bytes) : HtmlCall :=
  if !h.isOpen then
    (h, some (ascii "Html.flag(\"" ++ name ++ ascii "\"): no start tag is open " ++ emDash ++
      ascii " call open(tag) first"))
  else ({ h with buf := h.buf ++ [_SPACE] ++ name }, none)

def text (h : Html) (s : Bytes) : Html := { h.endTag with buf := escapeHtmlInto h.endTag.buf s }

def close (h : Html) (tag : Bytes) : Html := { h.endTag with buf := h.endTag.buf ++ [_LT] ++ [_SLASH] ++ tag ++ [_GT] }

def finish (h : Html) : Bytes := h.endTag.buf

end Html

/-! ## Swaps, in a library's spelling -/

structure RequestHeader where
  name : Bytes
  value : Bytes
  deriving Repr, DecidableEq

/-- The attributes a vocabulary writes, a flag with no value, and what it raises in the end. -/
structure Spelling where
  writes : List (Bytes × Option Bytes)
  raises : Option Bytes
  deriving Repr, DecidableEq

def STANDARD_VERBS : Bytes := ascii "get post put patch delete"
def HTMX_VERBS : Bytes := ascii "get post put patch delete query"

/-- `Vocabulary`, with the defaults its trait has. It writes with `attr` and `flag`, on the kind of the open
element. -/
structure Vocabulary where
  swap : ElementKind → (verb url target : Bytes) → Spelling
  verbs : Bytes := STANDARD_VERBS
  pushUrl : Spelling := ⟨[], some (ascii "swap(..., push=True): this vocabulary cannot push a URL")⟩
  requestHeader : RequestHeader → Spelling := fun _ =>
    ⟨[], some (ascii "swap(..., header=...): this vocabulary cannot send a request header")⟩

/-- The space-separated words, as the walk of `_verb_is_in` meets them. -/
def wordsFrom : (word : Bytes) → Bytes → List Bytes
  | word, [] => [word]
  | word, b :: rest => if b == _SPACE then word :: wordsFrom [] rest else wordsFrom (word ++ [b]) rest

/-- `_verb_is_in`. -/
def verbIsIn (verb verbs : Bytes) : Bool :=
  if verb.isEmpty then false else if verb.any (· == _SPACE) then false else (wordsFrom [] verbs).any (· == verb)

/-- `_check_request_header`: the error it raises. -/
def checkRequestHeader (header : RequestHeader) : Option Bytes :=
  let named := ascii "swap(..., header=RequestHeader(\"" ++ header.name ++ ascii "\", ...)): "
  if header.name.isEmpty then some (ascii "swap(..., header=...): the header has no name")
  else if header.name.any fun b => !isTokenChar b then
    some (named ++ ascii "a header name is letters, digits and !#$%&'*+-.^_`|~ alone")
  else
    match header.value.find? fun b => (b < 0x20 && b != 0x09) || b == 0x7F || b ≥ 0x80 with
    | none => none
    | some b =>
      if b ≥ 0x80 then
        some (named ++ ascii "the value is not ASCII, and a browser sends a header as Latin-1, not as the UTF-8 it was written in")
      else some (named ++ ascii "the value holds a control byte, which would end the header")

/-- `verbs.replace(" ", ", ")`. -/
def spacedVerbs (verbs : Bytes) : Bytes := verbs.flatMap fun b => if b == _SPACE then ascii ", " else [b]

/-- The attributes one by one, up to the first that raises. -/
def Html.writeAll (h : Html) : List (Bytes × Option Bytes) → HtmlCall
  | [] => (h, none)
  | (name, value) :: writes =>
    let call := match value with
      | some v => h.attr name v
      | none => h.flag name
    match call with
    | (h', some error) => (h', some error)
    | (h', none) => h'.writeAll writes

def Html.spell (h : Html) (s : Spelling) : HtmlCall :=
  match h.writeAll s.writes with
  | (h', some error) => (h', some error)
  | (h', none) => (h', s.raises)

/-- Where a call raised, the next is not made. -/
def HtmlCall.andThen (call : HtmlCall) (next : Html → HtmlCall) : HtmlCall :=
  match call with
  | (h, some error) => (h, some error)
  | (h, none) => next h

/-- `if push`. -/
def Html.pushUrl (h : Html) (v : Vocabulary) (push : Bool) : HtmlCall := if push then h.spell v.pushUrl else (h, none)

/-- `if header`. -/
def Html.requestHeader (h : Html) (v : Vocabulary) : Option RequestHeader → HtmlCall
  | none => (h, none)
  | some header => h.spell (v.requestHeader header)

/-- `_swap`. -/
def Html.swap (h : Html) (v : Vocabulary) (verb url target : Bytes) (push : Bool) (header : Option RequestHeader) :
    HtmlCall :=
  if push && verb != ascii "get" then
    (h, some (ascii "swap(\"" ++ verb ++ ascii "\", \"" ++ url ++ ascii "\", push=True): only a get is pushed " ++ emDash ++
      ascii " a pushed URL is one the browser will GET on reload"))
  else if !verbIsIn verb v.verbs then
    (h, some (ascii "swap(\"" ++ verb ++ ascii "\", ...): the verb must be one of " ++ spacedVerbs v.verbs))
  else
    match header.bind checkRequestHeader with
    | some error => (h, some error)
    | none =>
      let swapped := h.spell (v.swap h.openKind verb url target)
      let pushed := HtmlCall.andThen swapped fun h => h.pushUrl v push
      HtmlCall.andThen pushed fun h => h.requestHeader v header

/-- `Htmx`. -/
def htmx : Vocabulary where
  swap _ verb url target :=
    ⟨[(ascii "hx-" ++ verb, some url), (ascii "hx-target", some target), (ascii "hx-swap", some (ascii "outerHTML"))], none⟩
  verbs := HTMX_VERBS
  pushUrl := ⟨[(ascii "hx-push-url", some (ascii "true"))], none⟩
  requestHeader header :=
    ⟨[(ascii "hx-headers", some (ascii "\x7b" ++ Json.escapeJsonString header.name ++ ascii ":" ++
      Json.escapeJsonString header.value ++ ascii "\x7d"))], none⟩

/-- `_check_action_url`: the error it raises. -/
def checkActionUrl (url : Bytes) : Option Bytes :=
  if url.any fun c => c == 39 || c == 92 || c == 13 || c == 10 then
    some (ascii "Datastar swap(\"" ++ url ++
      ascii "\"): a URL inside a Datastar expression may not contain a quote, a backslash or a line break " ++ emDash ++
      ascii " percent-encode the value (url_for does)")
  else none

/-- `Datastar`. -/
def datastar : Vocabulary where
  swap kind verb url _ :=
    match checkActionUrl url with
    | some error => ⟨[], some error⟩
    | none =>
      let action := ascii "@" ++ verb ++ ascii "('" ++ url ++ ascii "')"
      match kind with
      | .form =>
        ⟨[(ascii "data-on:submit__prevent",
          some (ascii "@" ++ verb ++ ascii "('" ++ url ++ ascii "', \x7bcontentType: 'form'\x7d)"))], none⟩
      | .field => ⟨[(ascii "data-on:change", some action)], none⟩
      | .link => ⟨[(ascii "data-on:click__prevent", some action)], none⟩
      | .other => ⟨[(ascii "data-on:click", some action)], none⟩
  pushUrl := ⟨[], some (ascii "swap(..., push=True): Datastar has no history handling, so a pushed URL could not be gone back to " ++
    emDash ++ ascii " use a plain link for a view that needs an address")⟩
  requestHeader _ := ⟨[], some (ascii "swap(..., header=...): Datastar sends a header from inside the action, which this layer does not write " ++
    emDash ++ ascii " carry the token in a form field")⟩

/-! ## Sequences of calls -/

inductive HtmlOp
  | openTag (tag : Bytes)
  | attr (name value : Bytes)
  | flag (name : Bytes)
  | swap (v : Vocabulary) (verb url target : Bytes) (push : Bool) (header : Option RequestHeader)
  | text (s : Bytes)
  | close (tag : Bytes)

def Html.call (h : Html) : HtmlOp → HtmlCall
  | .openTag tag => (h.openTag tag, none)
  | .attr name value => h.attr name value
  | .flag name => h.flag name
  | .swap v verb url target push header => h.swap v verb url target push header
  | .text s => (h.text s, none)
  | .close tag => (h.close tag, none)

/-- The calls in order; where one raises, its caller goes on. -/
def Html.run (h : Html) (ops : List HtmlOp) : Html := ops.foldl (fun h op => (h.call op).1) h

/-- `Html()`, the calls, `finish()`. -/
def Html.build (ops : List HtmlOp) : Bytes := (Html.new.run ops).finish

/-! ## What the calls name -/

/-- A start tag with its attributes, a text or an end tag. -/
inductive HtmlItem
  | start (tag : Bytes) (attrs : List (Bytes × Option Bytes))
  | text (s : Bytes)
  | stop (tag : Bytes)
  deriving Repr, DecidableEq

/-- The items in order, and the start tag that still takes attributes. -/
structure Page where
  done : List HtmlItem
  pending : Option (Bytes × List (Bytes × Option Bytes))
  deriving Repr, DecidableEq

namespace Page

def items (p : Page) : List HtmlItem := p.done ++ (p.pending.map fun t => HtmlItem.start t.1 t.2).toList

/-- Attributes for the open start tag; with none open they are not written. -/
def write (p : Page) (attrs : List (Bytes × Option Bytes)) : Page :=
  { p with pending := p.pending.map fun t => (t.1, t.2 ++ attrs) }

/-- The attributes of the swap, of those spelled before the first refusal. -/
def swapWrites (kind : ElementKind) (v : Vocabulary) (verb url target : Bytes) (push : Bool) (header : Option RequestHeader) :
    List (Bytes × Option Bytes) :=
  if (push && verb != ascii "get") || !verbIsIn verb v.verbs || (header.bind checkRequestHeader).isSome then []
  else
    let swapped := v.swap kind verb url target
    let pushed : Spelling := if push then v.pushUrl else ⟨[], none⟩
    let sent : Spelling := (header.map v.requestHeader).getD ⟨[], none⟩
    swapped.writes ++
      if swapped.raises.isSome then []
      else pushed.writes ++ if pushed.raises.isSome then [] else sent.writes

def step (p : Page) : HtmlOp → Page
  | .openTag tag => ⟨p.items, some (tag, [])⟩
  | .attr name value => p.write [(name, some value)]
  | .flag name => p.write [(name, none)]
  | .swap v verb url target push header =>
    p.write (swapWrites ((p.pending.map fun t => Html.kindOf t.1).getD .other) v verb url target push header)
  | .text s => ⟨p.items ++ [HtmlItem.text s], none⟩
  | .close tag => ⟨p.items ++ [HtmlItem.stop tag], none⟩

def run (p : Page) (ops : List HtmlOp) : Page := ops.foldl step p

end Page

/-- What a sequence of calls names. -/
def pageItems (ops : List HtmlOp) : List HtmlItem := (Page.run ⟨[], none⟩ ops).items

/-! ## The buffer spells the page -/

def attrBytes : Bytes × Option Bytes → Bytes
  | (name, some value) => _SPACE :: name ++ _EQ :: _QUOTE :: value.flatMap htmlEscapeOf ++ [_QUOTE]
  | (name, none) => _SPACE :: name

def HtmlItem.bytes : HtmlItem → Bytes
  | .start tag attrs => _LT :: tag ++ attrs.flatMap attrBytes ++ [_GT]
  | .text s => s.flatMap htmlEscapeOf
  | .stop tag => _LT :: _SLASH :: tag ++ [_GT]

/-- The builder holds the page: an open start tag lacks its `>`. -/
structure Spells (h : Html) (p : Page) : Prop where
  isOpen : h.isOpen = p.pending.isSome
  kind : ∀ t, p.pending = some t → h.openKind = Html.kindOf t.1
  buf : h.buf = p.done.flatMap HtmlItem.bytes ++
    (p.pending.map fun t => _LT :: t.1 ++ t.2.flatMap attrBytes).getD []

theorem spells_new : Spells Html.new ⟨[], none⟩ where
  isOpen := rfl
  kind := by
    intro t ht
    cases ht
  buf := rfl

/-- A start tag that was open is ended. -/
theorem Spells.endTag {h : Html} {p : Page} (hs : Spells h p) :
    h.endTag.buf = p.items.flatMap HtmlItem.bytes ∧ h.endTag.isOpen = false := by
  have hopen := hs.isOpen
  have hbuf := hs.buf
  unfold Html.endTag Page.items
  cases hpending : p.pending with
  | none =>
    rw [hpending] at hopen hbuf
    rw [if_neg (by simp [hopen]), hopen]
    simpa using hbuf
  | some t =>
    rw [hpending] at hopen hbuf
    rw [if_pos (by simp [hopen])]
    simp [hbuf, HtmlItem.bytes]

theorem attrInto_eq (buf name value : Bytes) : Html.attrInto buf name value = buf ++ attrBytes (name, some value) := by
  simp [Html.attrInto, escapeHtmlInto_eq, attrBytes]

/-- The attributes go into the open start tag; with none open the first raises. -/
theorem Spells.writeAll {h : Html} {p : Page} (hs : Spells h p) (attrs : List (Bytes × Option Bytes)) :
    Spells (h.writeAll attrs).1 (p.write attrs) ∧
      ((h.writeAll attrs).2 = none ↔ attrs = [] ∨ h.isOpen = true) ∧ (h.writeAll attrs).1.isOpen = h.isOpen := by
  induction attrs generalizing h p with
  | nil =>
    refine ⟨?_, by simp [Html.writeAll], rfl⟩
    cases p with
    | mk done pending =>
      cases pending with
      | none => exact hs
      | some t => simpa [Page.write, Html.writeAll] using hs
  | cons a attrs ih =>
    obtain ⟨name, value⟩ := a
    have hopen := hs.isOpen
    cases hpending : p.pending with
    | none =>
      rw [hpending, Option.isSome_none] at hopen
      have hsame : p.write ((name, value) :: attrs) = p := by
        cases p
        simp_all [Page.write]
      rw [hsame]
      cases value with
      | none => simp [Html.writeAll, Html.flag, hopen, hs]
      | some v => simp [Html.writeAll, Html.attr, hopen, hs]
    | some t =>
      rw [hpending, Option.isSome_some] at hopen
      have hnext : ∀ buf, buf = h.buf ++ attrBytes (name, value) →
          Spells { h with buf := buf } (p.write [(name, value)]) := by
        rintro buf rfl
        refine ⟨by simp [Page.write, hpending, hopen], ?_, ?_⟩
        · intro t' ht'
          simp only [Page.write, hpending, Option.map_some, Option.some.injEq] at ht'
          rw [← ht']
          exact hs.kind t hpending
        · simp [Page.write, hs.buf, hpending]
      have hwrite : (p.write [(name, value)]).write attrs = p.write ((name, value) :: attrs) := by
        simp [Page.write, hpending]
      -- the first is written, the rest by induction
      cases value with
      | none =>
        have hone := hnext (h.buf ++ [_SPACE] ++ name) (by simp [attrBytes])
        obtain ⟨hspells, hraises, hstays⟩ := ih hone
        rw [hwrite] at hspells
        have hcall : h.writeAll ((name, none) :: attrs) = { h with buf := h.buf ++ [_SPACE] ++ name }.writeAll attrs := by
          simp [Html.writeAll, Html.flag, hopen]
        rw [hcall]
        refine ⟨hspells, ?_, hstays⟩
        rw [hraises]
        simp [hopen]
      | some v =>
        have hone := hnext (Html.attrInto h.buf name v) (attrInto_eq _ _ _)
        obtain ⟨hspells, hraises, hstays⟩ := ih hone
        rw [hwrite] at hspells
        have hcall : h.writeAll ((name, some v) :: attrs) = { h with buf := Html.attrInto h.buf name v }.writeAll attrs := by
          simp [Html.writeAll, Html.attr, hopen]
        rw [hcall]
        refine ⟨hspells, ?_, hstays⟩
        rw [hraises]
        simp [hopen]

theorem write_nil (p : Page) : p.write [] = p := by
  cases p with
  | mk done pending => cases pending <;> simp [Page.write]

theorem write_write (p : Page) (attrs attrs' : List (Bytes × Option Bytes)) :
    (p.write attrs).write attrs' = p.write (attrs ++ attrs') := by
  cases p with
  | mk done pending => cases pending <;> simp [Page.write]

/-- With no start tag open nothing is written. -/
theorem write_of_none {p : Page} (hpending : p.pending = none) (attrs : List (Bytes × Option Bytes)) :
    p.write attrs = p := by
  cases p
  simp_all [Page.write]

/-- A call that writes attributes into the open start tag, or none where there is none: then it raises, where there
was something to write. -/
structure Writes (h : Html) (p : Page) (attrs : List (Bytes × Option Bytes)) (call : HtmlCall) : Prop where
  spells : Spells call.1 (p.write attrs)
  stays : call.1.isOpen = h.isOpen

/-- What the second call writes goes behind what the first wrote. -/
theorem Writes.andThen {h : Html} {p : Page} {attrs attrs' : List (Bytes × Option Bytes)} {call : HtmlCall}
    (hfirst : Writes h p attrs call) {next : Html → HtmlCall}
    (hnext : call.2 = none → Writes call.1 (p.write attrs) attrs' (next call.1))
    (hraised : h.isOpen = true → call.2 ≠ none → attrs' = []) : Writes h p (attrs ++ attrs') (call.andThen next) := by
  obtain ⟨h', error⟩ := call
  cases error with
  | none =>
    obtain ⟨hspells, hstays⟩ := hnext rfl
    exact ⟨by rw [← write_write]; exact hspells, hstays.trans hfirst.stays⟩
  | some error =>
    refine ⟨?_, hfirst.stays⟩
    show Spells h' _
    cases hopen : h.isOpen with
    | true =>
      rw [hraised hopen (by simp), List.append_nil]
      exact hfirst.spells
    | false =>
      have hclosed : (p.write attrs).pending = none := by
        have hisOpen := hfirst.spells.isOpen
        rw [hfirst.stays, hopen] at hisOpen
        simpa using hisOpen.symm
      rw [← write_write, write_of_none hclosed]
      exact hfirst.spells

theorem Writes.spell {h : Html} {p : Page} (hs : Spells h p) (s : Spelling) : Writes h p s.writes (h.spell s) ∧
    ((h.spell s).2 = none → s.raises = none) ∧ (h.isOpen = true → (h.spell s).2 = s.raises) := by
  obtain ⟨hspells, hraises, hstays⟩ := hs.writeAll s.writes
  unfold Html.spell
  generalize h.writeAll s.writes = call at hspells hraises hstays
  obtain ⟨h', error⟩ := call
  cases error with
  | none => exact ⟨⟨hspells, hstays⟩, fun hnone => hnone, fun _ => rfl⟩
  | some error =>
    refine ⟨⟨hspells, hstays⟩, ?_, ?_⟩
    · intro hnone
      cases hnone
    · intro hopen
      cases hraises.mpr (Or.inr hopen)

theorem Writes.nothing {h : Html} {p : Page} (hs : Spells h p) : Writes h p [] (h, none) where
  spells := by rw [write_nil]; exact hs
  stays := rfl

theorem HtmlCall.andThen_assoc (call : HtmlCall) (next last : Html → HtmlCall) :
    (call.andThen next).andThen last = call.andThen fun h => (next h).andThen last := by
  obtain ⟨h, error⟩ := call
  cases error with
  | none => rfl
  | some error => rfl

/-- A further spelling, where there is one: the attributes behind it are written if it does not raise. -/
theorem Writes.spellThen {h : Html} {p : Page} (hs : Spells h p) (s : Spelling) {attrs : List (Bytes × Option Bytes)}
    {next : Html → HtmlCall} (hnext : ∀ {h' : Html} {p' : Page}, Spells h' p' → Writes h' p' attrs (next h')) :
    Writes h p (s.writes ++ if s.raises.isSome then [] else attrs) ((h.spell s).andThen next) := by
  obtain ⟨hwrites, hnone, hopen⟩ := Writes.spell hs s
  refine hwrites.andThen (fun hcall => ?_) fun hisOpen hcall => ?_
  · rw [hnone hcall]
    exact hnext hwrites.spells
  · rw [hopen hisOpen] at hcall
    rw [if_pos (Option.isSome_iff_ne_none.mpr hcall)]

/-- The spellings of a swap in turn. -/
theorem Spells.swap_kind {h : Html} {p : Page} (hs : Spells h p) (v : Vocabulary) (verb url target : Bytes) (push : Bool)
    (header : Option RequestHeader) :
    Spells (h.swap v verb url target push header).1
      (p.write (Page.swapWrites h.openKind v verb url target push header)) := by
  unfold Html.swap Page.swapWrites
  cases hpush : push && verb != ascii "get" with
  | true => simpa [write_nil] using hs
  | false =>
    cases hverb : verbIsIn verb v.verbs with
    | false => simpa [write_nil] using hs
    | true =>
      cases hheader : header.bind checkRequestHeader with
      | some error => simpa [write_nil] using hs
      | none =>
        have hsent : ∀ {h' : Html} {p' : Page}, Spells h' p' →
            Writes h' p' ((header.map v.requestHeader).getD ⟨[], none⟩).writes (h'.requestHeader v header) := by
          intro h' p' hs'
          cases header with
          | none => exact Writes.nothing hs'
          | some header => exact (Writes.spell hs' _).1
        dsimp only
        rw [HtmlCall.andThen_assoc]
        refine (Writes.spellThen hs _ fun hs' => ?_).spells
        cases push with
        | false => exact hsent hs'
        | true => exact Writes.spellThen hs' v.pushUrl hsent

/-- **A swap** writes its attributes into the open start tag. -/
theorem Spells.swap {h : Html} {p : Page} (hs : Spells h p) (v : Vocabulary) (verb url target : Bytes) (push : Bool)
    (header : Option RequestHeader) :
    Spells (h.swap v verb url target push header).1
      (p.write (Page.swapWrites ((p.pending.map fun t => Html.kindOf t.1).getD .other) v verb url target push header)) := by
  have hkind := hs.swap_kind v verb url target push header
  cases hpending : p.pending with
  | none =>
    -- with no start tag open the kind does not matter, for nothing is written
    rw [write_of_none hpending] at hkind ⊢
    exact hkind
  | some t =>
    rw [hs.kind t hpending] at hkind
    exact hkind

/-- Each call keeps the buffer and the page together. -/
theorem Spells.call {h : Html} {p : Page} (hs : Spells h p) (op : HtmlOp) : Spells (h.call op).1 (p.step op) := by
  obtain ⟨hbuf, hclosed⟩ := hs.endTag
  have hattr : ∀ name value, Spells (h.writeAll [(name, value)]).1 (p.write [(name, value)]) := fun name value =>
    (hs.writeAll [(name, value)]).1
  cases op with
  | openTag tag =>
    refine ⟨rfl, ?_, ?_⟩
    · rintro t ⟨⟩
      rfl
    · simp [Html.call, Html.openTag, Page.step, hbuf]
  | attr name value =>
    have hone := hattr name (some value)
    unfold Html.writeAll at hone
    dsimp only at hone
    show Spells (h.attr name value).1 _
    generalize h.attr name value = call at hone ⊢
    obtain ⟨h', error⟩ := call
    cases error with
    | none => exact hone
    | some error => exact hone
  | flag name =>
    have hone := hattr name none
    unfold Html.writeAll at hone
    dsimp only at hone
    show Spells (h.flag name).1 _
    generalize h.flag name = call at hone ⊢
    obtain ⟨h', error⟩ := call
    cases error with
    | none => exact hone
    | some error => exact hone
  | swap v verb url target push header => exact hs.swap v verb url target push header
  | text s =>
    refine ⟨?_, ?_, ?_⟩
    · simpa [Html.call, Html.text, Page.step] using hclosed
    · intro t ht
      cases ht
    · simp [Html.call, Html.text, Page.step, hbuf, escapeHtmlInto_eq, HtmlItem.bytes]
  | close tag =>
    refine ⟨?_, ?_, ?_⟩
    · simpa [Html.call, Html.close, Page.step] using hclosed
    · intro t ht
      cases ht
    · simp [Html.call, Html.close, Page.step, hbuf, HtmlItem.bytes]

theorem Spells.run {h : Html} {p : Page} (hs : Spells h p) (ops : List HtmlOp) : Spells (h.run ops) (p.run ops) := by
  induction ops generalizing h p with
  | nil => exact hs
  | cons op ops ih => exact ih (hs.call op)

/-- **What is built** spells what the calls name. -/
theorem build_eq (ops : List HtmlOp) : Html.build ops = (pageItems ops).flatMap HtmlItem.bytes :=
  (spells_new.run ops).endTag.1

/-! ## The expression tier -/

/-- `text`, `el` and `void`, with what `attr` and `flag` render between them. -/
inductive Markup
  | text (s : Bytes)
  | el (tag : Bytes) (attrs : List (Bytes × Option Bytes)) (children : List Markup)
  | void (tag : Bytes) (attrs : List (Bytes × Option Bytes))

/-- `attr` and `flag` of the expression tier. -/
def attrText : Bytes × Option Bytes → Bytes
  | (name, some value) => Html.attrInto [] name value
  | (name, none) => ascii " " ++ name

/-- `raw_attrs` with what `attr` and `flag` rendered, which begins with a space where it is not empty. -/
def Html.rawAttrs (h : Html) (rendered : Bytes) : HtmlCall :=
  if !h.isOpen then (h, some (ascii "Html.raw_attrs(...): no start tag is open " ++ emDash ++ ascii " call open(tag) first"))
  else if rendered.length > 0 && rendered.getD 0 0 != _SPACE then
    (h, some (ascii "Html.raw_attrs(\"" ++ rendered ++ ascii "\"): attributes start with a space, as attr() and flag() render them " ++
      emDash ++ ascii " is this a child that was meant to follow the attrs argument of el()?"))
  else ({ h with buf := h.buf ++ rendered }, none)

def Html.raw (h : Html) (s : Bytes) : Html := { h.endTag with buf := h.endTag.buf ++ s }

mutual

/-- The text an expression is; an error is never raised, by `render_eq`. -/
def Markup.render : Markup → Except Bytes Bytes
  | .text s => .ok (escapeHtmlInto [] s)
  | .el tag attrs children =>
    match (Html.new.openTag tag).rawAttrs (attrs.flatMap attrText) with
    | (_, some error) => .error error
    | (h, none) =>
      match Markup.renderAll children with
      | .error error => .error error
      | .ok rendered => .ok ((rendered.foldl Html.raw h).close tag).finish
  | .void tag attrs =>
    match (Html.new.openTag tag).rawAttrs (attrs.flatMap attrText) with
    | (_, some error) => .error error
    | (h, none) => .ok h.finish

def Markup.renderAll : List Markup → Except Bytes (List Bytes)
  | [] => .ok []
  | e :: es =>
    match e.render with
    | .error error => .error error
    | .ok first =>
      match Markup.renderAll es with
      | .error error => .error error
      | .ok texts => .ok (first :: texts)

end

mutual

/-- What an expression names. -/
def Markup.items : Markup → List HtmlItem
  | .text s => [.text s]
  | .el tag attrs children => .start tag attrs :: (Markup.itemsAll children ++ [HtmlItem.stop tag])
  | .void tag attrs => [.start tag attrs]

def Markup.itemsAll : List Markup → List HtmlItem
  | [] => []
  | e :: es => e.items ++ Markup.itemsAll es

end

theorem attrText_eq (a : Bytes × Option Bytes) : attrText a = attrBytes a := by
  obtain ⟨name, value⟩ := a
  cases value with
  | none => rfl
  | some value => rw [attrText, attrInto_eq, List.nil_append]

/-- The start tag and its rendered attributes. -/
theorem rawAttrs_eq (tag : Bytes) (attrs : List (Bytes × Option Bytes)) :
    (Html.new.openTag tag).rawAttrs (attrs.flatMap attrText) =
      (⟨_LT :: tag ++ attrs.flatMap attrBytes, true, Html.kindOf tag⟩, none) := by
  have hattrs : attrs.flatMap attrText = attrs.flatMap attrBytes := by
    congr 1
    funext a
    exact attrText_eq a
  have hspace : ¬((attrs.flatMap attrBytes).length > 0 && (attrs.flatMap attrBytes).getD 0 0 != _SPACE) = true := by
    cases attrs with
    | nil => simp
    | cons a attrs =>
      obtain ⟨name, value⟩ := a
      cases value <;> simp [attrBytes]
  rw [hattrs]
  unfold Html.rawAttrs
  rw [if_neg (by simp [Html.openTag]), if_neg hspace]
  simp [Html.openTag, Html.new, Html.endTag]

theorem foldl_raw (texts : List Bytes) (h : Html) :
    (texts.foldl Html.raw h).endTag.buf = h.endTag.buf ++ texts.flatten := by
  induction texts generalizing h with
  | nil => simp
  | cons text texts ih =>
    have hraw : (h.raw text).endTag.buf = h.endTag.buf ++ text := by
      unfold Html.raw Html.endTag
      split <;> simp_all
    rw [List.foldl_cons, ih, hraw, List.flatten_cons, List.append_assoc]

mutual

/-- **An expression** renders to what it names. -/
theorem Markup.render_eq : ∀ e : Markup, e.render = .ok (e.items.flatMap HtmlItem.bytes)
  | .text s => by simp [Markup.render, Markup.items, escapeHtmlInto_eq, HtmlItem.bytes]
  | .void tag attrs => by
    simp [Markup.render, Markup.items, rawAttrs_eq, Html.finish, Html.endTag, HtmlItem.bytes]
  | .el tag attrs children => by
    obtain ⟨texts, htexts, hflat⟩ := Markup.renderAll_eq children
    have hends : ∀ h : Html, (h.close tag).finish = h.endTag.buf ++ (_LT :: _SLASH :: tag ++ [_GT]) := by
      intro h
      unfold Html.finish Html.close Html.endTag
      split <;> simp_all
    rw [Markup.render, rawAttrs_eq, htexts]
    dsimp only
    rw [hends, foldl_raw, hflat]
    simp [Markup.items, Html.endTag, HtmlItem.bytes]

theorem Markup.renderAll_eq : ∀ es : List Markup, ∃ texts, Markup.renderAll es = .ok texts ∧
    texts.flatten = (Markup.itemsAll es).flatMap HtmlItem.bytes
  | [] => ⟨[], rfl, rfl⟩
  | e :: es => by
    obtain ⟨texts, htexts, hflat⟩ := Markup.renderAll_eq es
    refine ⟨e.items.flatMap HtmlItem.bytes :: texts, ?_, ?_⟩
    · rw [Markup.renderAll, Markup.render_eq e, htexts]
    · rw [List.flatten_cons, hflat, Markup.itemsAll, List.flatMap_append]

end

end MojoHttp
