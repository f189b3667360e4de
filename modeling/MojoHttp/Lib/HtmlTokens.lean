import Mathlib.Data.List.Basic
import Mathlib.Data.List.MinMax

/-!
# The tokens of an HTML text

The tokenizer of the HTML standard over the bytes of a text, with the content model a start tag switches to. The
table of named references is a parameter. Left out: the escapes a `<!--` opens within script data, the fields of a
doctype, and CDATA sections, which HTML content has none of.

* **`tokenize`** — newlines normalised, then one byte at a time; a reference is read where its `&` stands.
* **`Reads`** — a piece of text takes one lexer to another, whatever follows; `Reads.trans` joins pieces.
* **`reads_start`**, **`reads_end`**, **`reads_chars`** — what a tag, and text with its references, reads as.
-/

namespace HtmlTokens

abbrev Text := List UInt8

/-! ## Bytes -/

/-- A newline, a tab, a form feed or a blank. -/
def isSpace (b : UInt8) : Bool := b == 0x09 || b == 0x0A || b == 0x0C || b == 0x20

def isAlpha (b : UInt8) : Bool := (0x41 ≤ b && b ≤ 0x5A) || (0x61 ≤ b && b ≤ 0x7A)

def isDigit (b : UInt8) : Bool := 0x30 ≤ b && b ≤ 0x39

def isHexDigit (b : UInt8) : Bool := isDigit b || (0x41 ≤ b && b ≤ 0x46) || (0x61 ≤ b && b ≤ 0x66)

def lower (b : UInt8) : UInt8 := if 0x41 ≤ b && b ≤ 0x5A then b + 0x20 else b

/-- U+FFFD. -/
def replacement : Text := [0xEF, 0xBF, 0xBD]

/-- A byte where NUL is replaced. -/
def shown (b : UInt8) : Text := if b == 0 then replacement else [b]

/-- Newlines normalised: `cr` says that the byte before was a CR, read as the newline already. -/
def newlinesFrom : (cr : Bool) → Text → Text
  | _, [] => []
  | cr, b :: rest =>
    if b == 0x0D then 0x0A :: newlinesFrom true rest
    else if cr && b == 0x0A then newlinesFrom false rest
    else b :: newlinesFrom false rest

def newlines (text : Text) : Text := newlinesFrom false text

theorem newlinesFrom_cons (cr : Bool) (b : UInt8) (rest : Text) : newlinesFrom cr (b :: rest) =
    if b == 0x0D then 0x0A :: newlinesFrom true rest
    else if cr && b == 0x0A then newlinesFrom false rest
    else b :: newlinesFrom false rest := rfl

/-- A piece with no CR stands, unless it goes on with the newline of the CR before it. -/
theorem newlinesFrom_clean {cr : Bool} {b : UInt8} {piece : Text} (hclean : ∀ c ∈ b :: piece, c ≠ 0x0D)
    (hfirst : cr = false ∨ b ≠ 0x0A) (rest : Text) :
    newlinesFrom cr (b :: piece ++ rest) = b :: piece ++ newlinesFrom false rest := by
  induction piece generalizing cr b with
  | nil =>
    rw [List.forall_mem_cons] at hclean
    rw [List.cons_append, newlinesFrom_cons]
    rcases hfirst with rfl | hfirst
    · simp [hclean.1]
    · simp [hclean.1, hfirst]
  | cons c piece ih =>
    rw [List.forall_mem_cons] at hclean
    have hrest := @ih false c hclean.2 (Or.inl rfl)
    rw [List.cons_append, newlinesFrom_cons, hrest]
    rcases hfirst with rfl | hfirst
    · simp [hclean.1]
    · simp [hclean.1, hfirst]

/-! ## Character references -/

/-- The named references: each name, behind the `&`, with what it stands for. -/
structure References where
  table : List (Text × Text)

/-- What a table has: the four names of markup, one entry a name, a semicolon nowhere but last. -/
structure References.Standard (r : References) : Prop where
  amp : ([0x61, 0x6D, 0x70, 0x3B], [0x26]) ∈ r.table
  lt : ([0x6C, 0x74, 0x3B], [0x3C]) ∈ r.table
  gt : ([0x67, 0x74, 0x3B], [0x3E]) ∈ r.table
  quot : ([0x71, 0x75, 0x6F, 0x74, 0x3B], [0x22]) ∈ r.table
  one : ∀ e ∈ r.table, ∀ f ∈ r.table, e.1 = f.1 → e = f
  semicolon : ∀ e ∈ r.table, 0x3B ∉ e.1.dropLast

/-- The longest name the text begins with. -/
def References.longest (r : References) (rest : Text) : Option (Text × Text) :=
  (r.table.filter fun e => e.1.isPrefixOf rest).argmax fun e => e.1.length

/-- The numbers 0x80 to 0x9F, as the standard reads them. -/
def c1 : Nat → Nat
  | 0x80 => 0x20AC | 0x82 => 0x201A | 0x83 => 0x0192 | 0x84 => 0x201E | 0x85 => 0x2026 | 0x86 => 0x2020
  | 0x87 => 0x2021 | 0x88 => 0x02C6 | 0x89 => 0x2030 | 0x8A => 0x0160 | 0x8B => 0x2039 | 0x8C => 0x0152
  | 0x8E => 0x017D | 0x91 => 0x2018 | 0x92 => 0x2019 | 0x93 => 0x201C | 0x94 => 0x201D | 0x95 => 0x2022
  | 0x96 => 0x2013 | 0x97 => 0x2014 | 0x98 => 0x02DC | 0x99 => 0x2122 | 0x9A => 0x0161 | 0x9B => 0x203A
  | 0x9C => 0x0153 | 0x9E => 0x017E | 0x9F => 0x0178 | n => n

/-- What a numeric reference stands for. -/
def numbered (n : Nat) : Text :=
  if n == 0 || n > 0x10FFFF || (0xD800 ≤ n && n ≤ 0xDFFF) then replacement
  else String.utf8EncodeChar (Char.ofNat (c1 n))

def digitValue (b : UInt8) : Nat :=
  if isDigit b then b.toNat - 0x30 else if b ≤ 0x46 then b.toNat - 0x37 else b.toNat - 0x57

/-- The digits of a numeric reference in base `base`, `front` bytes behind its `&`. -/
def digitsRef (base front : Nat) (digits behind : Text) : Text × Nat :=
  if digits.isEmpty then ([0x26], 0)
  else
    (numbered (digits.foldl (fun n b => n * base + digitValue b) 0),
      front + digits.length + (if behind.head? == some 0x3B then 1 else 0))

/-- What the `&` in front of `rest` reads as, and how much of `rest` goes with it. -/
def charRef (r : References) (inAttr : Bool) (rest : Text) : Text × Nat :=
  match rest with
  | [] => ([0x26], 0)
  | b :: more =>
    if b == 0x23 then
      if more.head? == some 0x78 || more.head? == some 0x58 then
        digitsRef 16 2 (more.tail.takeWhile isHexDigit) (more.tail.dropWhile isHexDigit)
      else digitsRef 10 1 (more.takeWhile isDigit) (more.dropWhile isDigit)
    else if isAlpha b || isDigit b then
      match r.longest rest with
      | none => ([0x26], 0)
      | some (name, chars) =>
        let next := rest.getD name.length 0
        if inAttr && name.getLast? != some 0x3B && (next == 0x3D || isAlpha next || isDigit next) then ([0x26], 0)
        else (chars, name.length)
    else ([0x26], 0)

/-! ## The lexer -/

inductive Content
  | data
  | rcdata
  | rawtext
  | plaintext
  deriving Repr, DecidableEq

/-- A tag: `ends` of an end tag. -/
structure Tag where
  ends : Bool
  name : Text
  attrs : List (Text × Text)
  selfClosing : Bool
  deriving Repr, DecidableEq

inductive Token
  | tag (t : Tag)
  | char (b : UInt8)
  | comment (data : Text)
  | doctype (data : Text)
  deriving Repr, DecidableEq

inductive State
  | content
  | lessThan
  | endOpen
  | endName (buffer : Text)
  | tagName (t : Tag)
  | beforeName (t : Tag)
  | attrName (t : Tag) (name : Text)
  | afterName (t : Tag) (name : Text)
  | beforeValue (t : Tag) (name : Text)
  | quoted (quote : UInt8) (t : Tag) (name value : Text)
  | unquoted (t : Tag) (name value : Text)
  | afterValue (t : Tag)
  | selfClosing (t : Tag)
  | bogus (data : Text)
  | doctype (data : Text)
  | commentStart
  | commentStartDash
  | comment (data : Text)
  | commentEndDash (data : Text)
  | commentEnd (data : Text)
  | commentEndBang (data : Text)
  deriving Repr, DecidableEq

/-- The content being read, the last start tag's name and the state. -/
structure Lexer where
  content : Content
  last : Text
  state : State
  deriving Repr, DecidableEq

/-- A lexer, the tokens it gave, and how many bytes behind the one it read went with it. -/
abbrev Turn := Lexer × List Token × Nat

/-- An attribute whose name the tag has already is dropped. -/
def Tag.add (t : Tag) (name value : Text) : Tag :=
  if t.attrs.any fun a => a.1 == name then t else { t with attrs := t.attrs ++ [(name, value)] }

def Lexer.enter (l : Lexer) (state : State) : Turn := ({ l with state := state }, [], 0)

section

variable (r : References) (contentOf : Text → Content)

/-- A tag is given; a start tag switches to its content. -/
def Lexer.give (l : Lexer) (t : Tag) : Turn :=
  if t.ends then (⟨.data, l.last, .content⟩, [.tag t], 0) else (⟨contentOf t.name, t.name, .content⟩, [.tag t], 0)

/-- A byte of the content, behind what was held back. -/
def Lexer.inContent (l : Lexer) (held : Text) (b : UInt8) (rest : Text) : Turn :=
  let chars := held.map Token.char
  let refers := l.content == .data || l.content == .rcdata
  if refers && b == 0x26 then
    ({ l with state := .content }, chars ++ (charRef r false rest).1.map Token.char, (charRef r false rest).2)
  else if l.content != .plaintext && b == 0x3C then ({ l with state := .lessThan }, chars, 0)
  else if l.content == .data then ({ l with state := .content }, chars ++ [Token.char b], 0)
  else ({ l with state := .content }, chars ++ (shown b).map Token.char, 0)

def Lexer.inTagName (l : Lexer) (t : Tag) (b : UInt8) : Turn :=
  if isSpace b then l.enter (.beforeName t)
  else if b == 0x2F then l.enter (.selfClosing t)
  else if b == 0x3E then l.give contentOf t
  else l.enter (.tagName { t with name := t.name ++ (shown b).map lower })

def Lexer.inAttrName (l : Lexer) (t : Tag) (name : Text) (b : UInt8) : Turn :=
  if isSpace b then l.enter (.afterName t name)
  else if b == 0x2F then l.enter (.selfClosing (t.add name []))
  else if b == 0x3E then l.give contentOf (t.add name [])
  else if b == 0x3D then l.enter (.beforeValue t name)
  else l.enter (.attrName t (name ++ (shown b).map lower))

def Lexer.inBeforeName (l : Lexer) (t : Tag) (b : UInt8) : Turn :=
  if isSpace b then l.enter (.beforeName t)
  else if b == 0x2F then l.enter (.selfClosing t)
  else if b == 0x3E then l.give contentOf t
  -- an equals sign in front of a name is part of it
  else if b == 0x3D then l.enter (.attrName t [b])
  else l.inAttrName contentOf t [] b

def Lexer.inAfterName (l : Lexer) (t : Tag) (name : Text) (b : UInt8) : Turn :=
  if isSpace b then l.enter (.afterName t name)
  else if b == 0x2F then l.enter (.selfClosing (t.add name []))
  else if b == 0x3D then l.enter (.beforeValue t name)
  else if b == 0x3E then l.give contentOf (t.add name [])
  else l.inAttrName contentOf (t.add name []) [] b

def Lexer.inQuoted (l : Lexer) (quote : UInt8) (t : Tag) (name value : Text) (b : UInt8) (rest : Text) : Turn :=
  if b == quote then l.enter (.afterValue (t.add name value))
  else if b == 0x26 then
    ({ l with state := .quoted quote t name (value ++ (charRef r true rest).1) }, [], (charRef r true rest).2)
  else l.enter (.quoted quote t name (value ++ shown b))

def Lexer.inUnquoted (l : Lexer) (t : Tag) (name value : Text) (b : UInt8) (rest : Text) : Turn :=
  if isSpace b then l.enter (.beforeName (t.add name value))
  else if b == 0x26 then
    ({ l with state := .unquoted t name (value ++ (charRef r true rest).1) }, [], (charRef r true rest).2)
  else if b == 0x3E then l.give contentOf (t.add name value)
  else l.enter (.unquoted t name (value ++ shown b))

def Lexer.inBeforeValue (l : Lexer) (t : Tag) (name : Text) (b : UInt8) (rest : Text) : Turn :=
  if isSpace b then l.enter (.beforeValue t name)
  else if b == 0x22 || b == 0x27 then l.enter (.quoted b t name [])
  else if b == 0x3E then l.give contentOf (t.add name [])
  else l.inUnquoted r contentOf t name [] b rest

def Lexer.inAfterValue (l : Lexer) (t : Tag) (b : UInt8) : Turn :=
  if isSpace b then l.enter (.beforeName t)
  else if b == 0x2F then l.enter (.selfClosing t)
  else if b == 0x3E then l.give contentOf t
  else l.inBeforeName contentOf t b

def Lexer.inBogus (l : Lexer) (data : Text) (b : UInt8) : Turn :=
  if b == 0x3E then ({ l with state := .content }, [.comment data], 0) else l.enter (.bogus (data ++ shown b))

/-- Within a comment. The states behind a `<` only report errors. -/
def Lexer.inComment (l : Lexer) (data : Text) (b : UInt8) : Turn :=
  if b == 0x2D then l.enter (.commentEndDash data) else l.enter (.comment (data ++ shown b))

def Lexer.inCommentEnd (l : Lexer) (data : Text) (b : UInt8) : Turn :=
  if b == 0x3E then ({ l with state := .content }, [.comment data], 0)
  else if b == 0x21 then l.enter (.commentEndBang data)
  else if b == 0x2D then l.enter (.commentEnd (data ++ [0x2D]))
  else l.inComment (data ++ [0x2D, 0x2D]) b

/-- Behind `<!`, which stands in front of `rest`. -/
def Lexer.inMarkup (l : Lexer) (rest : Text) : Turn :=
  if [0x2D, 0x2D].isPrefixOf rest then ({ l with state := .commentStart }, [], 2)
  else if (rest.take 7).map lower == [0x64, 0x6F, 0x63, 0x74, 0x79, 0x70, 0x65] then
    ({ l with state := .doctype [] }, [], 7)
  else ({ l with state := .bogus [] }, [], 0)

def Lexer.inLessThan (l : Lexer) (b : UInt8) (rest : Text) : Turn :=
  if b == 0x2F then l.enter .endOpen
  else if l.content != .data then l.inContent r [0x3C] b rest
  else if b == 0x21 then l.inMarkup rest
  else if b == 0x3F then l.inBogus [] b
  else if isAlpha b then l.inTagName contentOf ⟨false, [], [], false⟩ b
  else l.inContent r [0x3C] b rest

def Lexer.inEndOpen (l : Lexer) (b : UInt8) (rest : Text) : Turn :=
  if l.content != .data then
    if isAlpha b then l.enter (.endName [b]) else l.inContent r [0x3C, 0x2F] b rest
  else if isAlpha b then l.inTagName contentOf ⟨true, [], [], false⟩ b
  else if b == 0x3E then l.enter .content
  else l.inBogus [] b

/-- The name of an end tag outside data, which counts where it is the last start tag's. -/
def Lexer.inEndName (l : Lexer) (buffer : Text) (b : UInt8) (rest : Text) : Turn :=
  let t : Tag := ⟨true, buffer.map lower, [], false⟩
  let appropriate := buffer.map lower == l.last
  if isSpace b && appropriate then l.enter (.beforeName t)
  else if b == 0x2F && appropriate then l.enter (.selfClosing t)
  else if b == 0x3E && appropriate then l.give contentOf t
  else if isAlpha b then l.enter (.endName (buffer ++ [b]))
  else l.inContent r (0x3C :: 0x2F :: buffer) b rest

/-- One byte, with what stands behind it. -/
def Lexer.step (l : Lexer) (b : UInt8) (rest : Text) : Turn :=
  match l.state with
  | .content => l.inContent r [] b rest
  | .lessThan => l.inLessThan r contentOf b rest
  | .endOpen => l.inEndOpen r contentOf b rest
  | .endName buffer => l.inEndName r contentOf buffer b rest
  | .tagName t => l.inTagName contentOf t b
  | .beforeName t => l.inBeforeName contentOf t b
  | .attrName t name => l.inAttrName contentOf t name b
  | .afterName t name => l.inAfterName contentOf t name b
  | .beforeValue t name => l.inBeforeValue r contentOf t name b rest
  | .quoted quote t name value => l.inQuoted r quote t name value b rest
  | .unquoted t name value => l.inUnquoted r contentOf t name value b rest
  | .afterValue t => l.inAfterValue contentOf t b
  | .selfClosing t => if b == 0x3E then l.give contentOf { t with selfClosing := true } else l.inBeforeName contentOf t b
  | .bogus data => l.inBogus data b
  | .doctype data =>
    if b == 0x3E then ({ l with state := .content }, [.doctype data], 0) else l.enter (.doctype (data ++ shown b))
  | .commentStart =>
    if b == 0x2D then l.enter .commentStartDash
    else if b == 0x3E then ({ l with state := .content }, [.comment []], 0)
    else l.inComment [] b
  | .commentStartDash =>
    if b == 0x2D then l.enter (.commentEnd [])
    else if b == 0x3E then ({ l with state := .content }, [.comment []], 0)
    else l.inComment [0x2D] b
  | .comment data => l.inComment data b
  | .commentEndDash data => if b == 0x2D then l.enter (.commentEnd data) else l.inComment (data ++ [0x2D]) b
  | .commentEnd data => l.inCommentEnd data b
  | .commentEndBang data =>
    if b == 0x2D then l.enter (.commentEndDash (data ++ [0x2D, 0x2D, 0x21]))
    else if b == 0x3E then ({ l with state := .content }, [.comment data], 0)
    else l.inComment (data ++ [0x2D, 0x2D, 0x21]) b

/-- What is given at the end of the text: an unfinished tag is dropped. -/
def Lexer.atEnd (l : Lexer) : List Token :=
  match l.state with
  | .lessThan => [.char 0x3C]
  | .endOpen => [.char 0x3C, .char 0x2F]
  | .endName buffer => (0x3C :: 0x2F :: buffer).map Token.char
  | .bogus data | .comment data | .commentEndDash data | .commentEnd data | .commentEndBang data => [.comment data]
  | .commentStart | .commentStartDash => [.comment []]
  | .doctype data => [.doctype data]
  | _ => []

/-- The tokens of a text, its first `skip` bytes read already. -/
def lex : Lexer → (skip : Nat) → Text → List Token
  | l, _, [] => l.atEnd
  | l, skip + 1, _ :: rest => lex l skip rest
  | l, 0, b :: rest => (l.step r contentOf b rest).2.1 ++ lex (l.step r contentOf b rest).1 (l.step r contentOf b rest).2.2 rest

def tokenize (text : Text) : List Token := lex r contentOf ⟨.data, [], .content⟩ 0 (newlines text)

end

/-! ## Names -/

/-- A byte of a tag's name. -/
def isNameByte (b : UInt8) : Bool := !isSpace b && b != 0x0D && b != 0x2F && b != 0x3E && b != 0

/-- A name of a tag: a letter first. -/
def IsTagName (name : Text) : Prop := (∃ b ∈ name.head?, isAlpha b = true) ∧ ∀ b ∈ name, isNameByte b = true

/-- A name of an attribute. -/
def IsAttrName (name : Text) : Prop := name ≠ [] ∧ ∀ b ∈ name, isNameByte b = true ∧ b ≠ 0x3D

instance (name : Text) : Decidable (IsAttrName name) := inferInstanceAs (Decidable (_ ∧ _))

/-- Folded names, each with its first value, as a tag holds them. -/
def Tag.addAll (t : Tag) (attrs : List (Text × Text)) : Tag :=
  attrs.foldl (fun t a => t.add a.1 a.2) t

/-- The elements whose content is text only, by what is read in it. -/
def contentOf (scripting : Bool) (name : Text) : Content :=
  let bytes (s : String) : Text := s.toList.map fun c => UInt8.ofNat c.toNat
  if name == bytes "title" || name == bytes "textarea" then .rcdata
  else if name == bytes "style" || name == bytes "xmp" || name == bytes "iframe" || name == bytes "noembed" ||
    name == bytes "noframes" || name == bytes "script" || (scripting && name == bytes "noscript") then .rawtext
  else if name == bytes "plaintext" then .plaintext
  else .data

theorem lower_letters {b : UInt8} (h : isAlpha (lower b) = true) : isAlpha b = true := by
  unfold lower at h
  split at h
  · next hupper =>
    unfold isAlpha
    rw [hupper]
    rfl
  · exact h

/-- The elements that hold text only are named in letters. -/
theorem letters_of_contentOf {scripting : Bool} {name : Text} (h : contentOf scripting name ≠ .data) :
    name ≠ [] ∧ ∀ b ∈ name, isAlpha b = true := by
  unfold contentOf at h
  dsimp only at h
  split at h
  · next hname =>
    rw [Bool.or_eq_true, beq_iff_eq, beq_iff_eq] at hname
    rcases hname with rfl | rfl
    · decide
    · decide
  · split at h
    · next hname =>
      simp only [Bool.or_eq_true, Bool.and_eq_true, beq_iff_eq] at hname
      rcases hname with (((((rfl | rfl) | rfl) | rfl) | rfl) | rfl) | ⟨-, rfl⟩
      · decide
      · decide
      · decide
      · decide
      · decide
      · decide
      · decide
    · split at h
      · next hname =>
        rw [beq_iff_eq] at hname
        subst hname
        decide
      · exact absurd rfl h

theorem Tag.add_name (t : Tag) (name value : Text) :
    (t.add name value).name = t.name ∧ (t.add name value).ends = t.ends := by
  unfold Tag.add
  split
  · exact ⟨rfl, rfl⟩
  · exact ⟨rfl, rfl⟩

theorem Tag.addAll_name (t : Tag) (attrs : List (Text × Text)) :
    (t.addAll attrs).name = t.name ∧ (t.addAll attrs).ends = t.ends := by
  unfold Tag.addAll
  induction attrs generalizing t with
  | nil => exact ⟨rfl, rfl⟩
  | cons a attrs ih =>
    obtain ⟨hname, hends⟩ := ih (t.add a.1 a.2)
    rw [List.foldl_cons, hname, hends]
    exact t.add_name a.1 a.2

/-! ## Reading a piece of text -/

section Reads

variable {r : References} {contentOf : Text → Content}

/-- From `l`, the piece is read into `l'` and gives `out`, whatever stands behind it. -/
def Reads (r : References) (contentOf : Text → Content) (l : Lexer) (piece : Text) (l' : Lexer) (out : List Token) :
    Prop :=
  ∀ rest, lex r contentOf l 0 (piece ++ rest) = out ++ lex r contentOf l' 0 rest

theorem lex_cons (l : Lexer) (b : UInt8) (rest : Text) : lex r contentOf l 0 (b :: rest) =
    (l.step r contentOf b rest).2.1 ++ lex r contentOf (l.step r contentOf b rest).1 (l.step r contentOf b rest).2.2 rest :=
  rfl

theorem lex_succ (l : Lexer) (skip : Nat) (b : UInt8) (rest : Text) :
    lex r contentOf l (skip + 1) (b :: rest) = lex r contentOf l skip rest := rfl

theorem Reads.refl (l : Lexer) : Reads r contentOf l [] l [] := fun _ => rfl

theorem Reads.trans {l l' l'' : Lexer} {piece piece' : Text} {out out' : List Token}
    (h : Reads r contentOf l piece l' out) (h' : Reads r contentOf l' piece' l'' out') :
    Reads r contentOf l (piece ++ piece') l'' (out ++ out') := by
  intro rest
  rw [List.append_assoc, h, h', List.append_assoc]

/-- One byte that takes nothing with it. -/
theorem reads_byte {l l' : Lexer} {b : UInt8} {out : List Token}
    (h : ∀ rest, l.step r contentOf b rest = (l', out, 0)) : Reads r contentOf l [b] l' out := by
  intro rest
  rw [List.singleton_append, lex_cons, h rest]

theorem lex_skip (l : Lexer) (skipped rest : Text) :
    lex r contentOf l skipped.length (skipped ++ rest) = lex r contentOf l 0 rest := by
  induction skipped with
  | nil => rfl
  | cons b skipped ih =>
    rw [List.length_cons, List.cons_append, lex_succ, ih]

/-- One byte with what it takes along. -/
theorem reads_skip {l l' : Lexer} {b : UInt8} {taken : Text} {out : List Token}
    (h : ∀ rest, l.step r contentOf b (taken ++ rest) = (l', out, taken.length)) :
    Reads r contentOf l (b :: taken) l' out := by
  intro rest
  rw [List.cons_append, lex_cons, h rest, lex_skip]

/-- Pieces that each leave the lexer where it is. -/
theorem reads_flatMap {l : Lexer} {spell : UInt8 → Text} {gives : UInt8 → List Token} {s : Text}
    (h : ∀ b ∈ s, Reads r contentOf l (spell b) l (gives b)) :
    Reads r contentOf l (s.flatMap spell) l (s.flatMap gives) := by
  induction s with
  | nil => exact Reads.refl l
  | cons b s ih =>
    rw [List.flatMap_cons, List.flatMap_cons]
    exact (h b List.mem_cons_self).trans (ih fun c hc => h c (List.mem_cons_of_mem _ hc))

/-- Pieces that each add to what the lexer holds. -/
theorem reads_held {hold : Text → Lexer} {spell add : UInt8 → Text} {s : Text}
    (h : ∀ held, ∀ b ∈ s, Reads r contentOf (hold held) (spell b) (hold (held ++ add b)) []) (held : Text) :
    Reads r contentOf (hold held) (s.flatMap spell) (hold (held ++ s.flatMap add)) [] := by
  induction s generalizing held with
  | nil =>
    rw [List.flatMap_nil, List.flatMap_nil, List.append_nil]
    exact Reads.refl _
  | cons b s ih =>
    rw [List.flatMap_cons, List.flatMap_cons, ← List.append_assoc]
    exact (h held b List.mem_cons_self).trans (ih (fun held c hc => h held c (List.mem_cons_of_mem _ hc)) _)

/-! ## References -/

/-- A name that ends in a semicolon is the longest there is. -/
theorem References.Standard.longest_eq (hr : r.Standard) {name chars : Text} (hmem : (name, chars) ∈ r.table)
    (hlast : name.getLast? = some 0x3B) (rest : Text) : r.longest (name ++ rest) = some (name, chars) := by
  have hin : (name, chars) ∈ r.table.filter fun e => e.1.isPrefixOf (name ++ rest) := by
    rw [List.mem_filter]
    exact ⟨hmem, by simp⟩
  unfold longest
  cases hbest : (r.table.filter fun e => e.1.isPrefixOf (name ++ rest)).argmax fun e => e.1.length with
  | none =>
    rw [List.argmax_eq_none] at hbest
    rw [hbest] at hin
    cases hin
  | some best =>
    have hbestIn := List.mem_filter.mp (List.argmax_mem hbest)
    have hlong := List.le_of_mem_argmax hin hbest
    have hprefix : best.1 <+: name ++ rest := by simpa using hbestIn.2
    obtain ⟨more, hmore⟩ := List.prefix_of_prefix_length_le (List.prefix_append name rest) hprefix hlong
    cases more with
    | nil =>
      rw [List.append_nil] at hmore
      rw [hr.one _ hmem best hbestIn.1 hmore]
    | cons b more =>
      -- the semicolon would stand before the last byte of the longer name
      refine absurd ?_ (hr.semicolon best hbestIn.1)
      rw [← hmore, List.dropLast_append_of_ne_nil (List.cons_ne_nil b more)]
      exact List.mem_append_left _ (List.mem_of_getLast? hlast)

theorem charRef_named (hr : r.Standard) {b : UInt8} {name chars : Text} (hmem : (b :: name, chars) ∈ r.table)
    (hlast : (b :: name).getLast? = some 0x3B) (hb : isAlpha b = true) (hash : b ≠ 0x23) (inAttr : Bool) (rest : Text) :
    charRef r inAttr (b :: name ++ rest) = (chars, (b :: name).length) := by
  have hlongest := hr.longest_eq hmem hlast rest
  unfold charRef
  rw [List.cons_append] at hlongest ⊢
  dsimp only
  rw [if_neg (by simpa using hash), hb, Bool.true_or, if_pos rfl, hlongest]
  dsimp only
  rw [hlast]
  simp

/-- `&#x27;`. -/
theorem charRef_apostrophe (inAttr : Bool) (rest : Text) :
    charRef r inAttr ([0x23, 0x78, 0x32, 0x37, 0x3B] ++ rest) = ([0x27], 5) := rfl

/-! ## Text -/

/-- How a byte of text reads: NUL stands in data only. -/
def Content.shows (c : Content) (b : UInt8) : Text := if c = .data then [b] else shown b

/-- The content in which references are read. -/
def Content.Refers (c : Content) : Prop := c = .data ∨ c = .rcdata

theorem reads_reference {c : Content} (hc : c.Refers) {last taken chars : Text}
    (href : ∀ rest, charRef r false (taken ++ rest) = (chars, taken.length)) :
    Reads r contentOf ⟨c, last, .content⟩ (0x26 :: taken) ⟨c, last, .content⟩ (chars.map Token.char) := by
  refine reads_skip fun rest => ?_
  have hrefers : ((c == .data || c == .rcdata) && (0x26 : UInt8) == 0x26) = true := by
    rcases hc with rfl | rfl
    · decide
    · decide
  show Lexer.inContent r ⟨c, last, .content⟩ [] 0x26 (taken ++ rest) = _
  unfold Lexer.inContent
  rw [href]
  dsimp only
  rw [if_pos hrefers]
  rfl

theorem reads_plain {c : Content} (hc : c.Refers) {last : Text} {b : UInt8} (hamp : b ≠ 0x26) (hlt : b ≠ 0x3C) :
    Reads r contentOf ⟨c, last, .content⟩ [b] ⟨c, last, .content⟩ ((c.shows b).map Token.char) := by
  refine reads_byte fun rest => ?_
  show Lexer.inContent r ⟨c, last, .content⟩ [] b rest = _
  unfold Lexer.inContent Content.shows
  rcases hc with rfl | rfl
  · simp [hamp, hlt]
  · simp [hamp, hlt]

/-! ## Tags -/

theorem isNameByte_iff {b : UInt8} : isNameByte b = true ↔
    isSpace b = false ∧ b ≠ 0x0D ∧ b ≠ 0x2F ∧ b ≠ 0x3E ∧ b ≠ 0 := by
  simp [isNameByte, and_assoc]

theorem isAlpha_ne {b c : UInt8} (h : isAlpha b = true) (hc : isAlpha c = false) : b ≠ c := by
  rintro rfl
  rw [h] at hc
  cases hc

/-- Letters are bytes of a name. -/
theorem isNameByte_of_isAlpha {b : UInt8} (h : isAlpha b = true) : isNameByte b = true := by
  rw [isNameByte_iff]
  refine ⟨?_, isAlpha_ne h (by decide), isAlpha_ne h (by decide), isAlpha_ne h (by decide), isAlpha_ne h (by decide)⟩
  simp [isSpace, isAlpha_ne h (show isAlpha 0x09 = false by decide), isAlpha_ne h (show isAlpha 0x0A = false by decide),
    isAlpha_ne h (show isAlpha 0x0C = false by decide), isAlpha_ne h (show isAlpha 0x20 = false by decide)]

theorem shown_of_ne {b : UInt8} (h : b ≠ 0) : shown b = [b] := by
  simp [shown, h]

theorem inTagName_eq (l : Lexer) (t : Tag) {b : UInt8} (hb : isNameByte b = true) :
    l.inTagName contentOf t b = l.enter (.tagName { t with name := t.name ++ [lower b] }) := by
  obtain ⟨hspace, -, hslash, hgt, hzero⟩ := isNameByte_iff.mp hb
  simp [Lexer.inTagName, hspace, hslash, hgt, shown_of_ne hzero]

/-- The rest of a tag's name. -/
theorem reads_tagName (l : Lexer) (t : Tag) {name : Text} (hname : ∀ b ∈ name, isNameByte b = true) :
    Reads r contentOf { l with state := .tagName t } name
      { l with state := .tagName { t with name := t.name ++ name.map lower } } [] := by
  induction name generalizing t with
  | nil =>
    rw [List.map_nil, List.append_nil]
    exact Reads.refl _
  | cons b name ih =>
    rw [List.forall_mem_cons] at hname
    have hbyte : Reads r contentOf { l with state := .tagName t } [b]
        { l with state := .tagName { t with name := t.name ++ [lower b] } } [] := by
      refine reads_byte fun rest => ?_
      exact inTagName_eq { l with state := .tagName t } t hname.1
    have hrest := hbyte.trans (ih { t with name := t.name ++ [lower b] } hname.2)
    rw [List.singleton_append, List.append_assoc, List.singleton_append] at hrest
    exact hrest

/-- `<` and a name begin a start tag. -/
theorem reads_open {last name : Text} (hname : IsTagName name) :
    Reads r contentOf ⟨.data, last, .content⟩ (0x3C :: name)
      ⟨.data, last, .tagName ⟨false, name.map lower, [], false⟩⟩ [] := by
  obtain ⟨⟨b, hhead, hletter⟩, hall⟩ := hname
  obtain ⟨name, rfl⟩ : ∃ more, name = b :: more := by
    cases name with
    | nil => cases hhead
    | cons c more => exact ⟨more, by rw [Option.some.inj hhead]⟩
  rw [List.forall_mem_cons] at hall
  have hlt : Reads r contentOf ⟨.data, last, .content⟩ [0x3C] ⟨.data, last, .lessThan⟩ [] :=
    reads_byte fun rest => rfl
  have hfirst : Reads r contentOf ⟨.data, last, .lessThan⟩ [b]
      ⟨.data, last, .tagName ⟨false, [lower b], [], false⟩⟩ [] := by
    refine reads_byte fun rest => ?_
    show Lexer.inLessThan r contentOf ⟨.data, last, .lessThan⟩ b rest = _
    unfold Lexer.inLessThan
    rw [if_neg (by simpa using isAlpha_ne hletter (by decide)), if_neg (by simp),
      if_neg (by simpa using isAlpha_ne hletter (by decide)), if_neg (by simpa using isAlpha_ne hletter (by decide)),
      if_pos hletter, inTagName_eq _ _ hall.1]
    rfl
  exact (hlt.trans hfirst).trans (reads_tagName ⟨.data, last, .lessThan⟩ _ hall.2)

/-- `</`, a name and `>` are an end tag of the data. -/
theorem reads_endTag {last name : Text} (hname : IsTagName name) :
    Reads r contentOf ⟨.data, last, .content⟩ (0x3C :: 0x2F :: name ++ [0x3E]) ⟨.data, last, .content⟩
      [.tag ⟨true, name.map lower, [], false⟩] := by
  obtain ⟨⟨b, hhead, hletter⟩, hall⟩ := hname
  obtain ⟨name, rfl⟩ : ∃ more, name = b :: more := by
    cases name with
    | nil => cases hhead
    | cons c more => exact ⟨more, by rw [Option.some.inj hhead]⟩
  rw [List.forall_mem_cons] at hall
  have hlt : Reads r contentOf ⟨.data, last, .content⟩ [0x3C] ⟨.data, last, .lessThan⟩ [] :=
    reads_byte fun rest => rfl
  have hslash : Reads r contentOf ⟨.data, last, .lessThan⟩ [0x2F] ⟨.data, last, .endOpen⟩ [] :=
    reads_byte fun rest => rfl
  have hfirst : Reads r contentOf ⟨.data, last, .endOpen⟩ [b]
      ⟨.data, last, .tagName ⟨true, [lower b], [], false⟩⟩ [] := by
    refine reads_byte fun rest => ?_
    show Lexer.inEndOpen r contentOf ⟨.data, last, .endOpen⟩ b rest = _
    unfold Lexer.inEndOpen
    rw [if_neg (by simp), if_pos hletter, inTagName_eq _ _ hall.1]
    rfl
  have hgt : Reads r contentOf ⟨.data, last, .tagName ⟨true, [lower b] ++ name.map lower, [], false⟩⟩ [0x3E]
      ⟨.data, last, .content⟩ [.tag ⟨true, [lower b] ++ name.map lower, [], false⟩] :=
    reads_byte fun rest => rfl
  have hname : Reads r contentOf ⟨.data, last, .tagName ⟨true, [lower b], [], false⟩⟩ name
      ⟨.data, last, .tagName ⟨true, [lower b] ++ name.map lower, [], false⟩⟩ [] :=
    reads_tagName ⟨.data, last, .endOpen⟩ ⟨true, [lower b], [], false⟩ hall.2
  exact (((hlt.trans hslash).trans hfirst).trans hname).trans hgt

/-- The end tag of what is read as text only: letters, those of the last start tag. -/
theorem reads_endOfText {c : Content} (hdata : c ≠ .data) (hplain : c ≠ .plaintext) {last name : Text}
    (hlast : name.map lower = last) (hne : name ≠ []) (hletters : ∀ b ∈ name, isAlpha b = true) :
    Reads r contentOf ⟨c, last, .content⟩ (0x3C :: 0x2F :: name ++ [0x3E]) ⟨.data, last, .content⟩
      [.tag ⟨true, last, [], false⟩] := by
  have hlt : Reads r contentOf ⟨c, last, .content⟩ [0x3C] ⟨c, last, .lessThan⟩ [] := by
    refine reads_byte fun rest => ?_
    show Lexer.inContent r ⟨c, last, .content⟩ [] 0x3C rest = _
    unfold Lexer.inContent
    simp [hplain]
  have hslash : Reads r contentOf ⟨c, last, .lessThan⟩ [0x2F] ⟨c, last, .endOpen⟩ [] :=
    reads_byte fun rest => rfl
  have hbuffer : ∀ more buffer : Text, (∀ b ∈ more, isAlpha b = true) → Reads r contentOf ⟨c, last, .endName buffer⟩ more
      ⟨c, last, .endName (buffer ++ more)⟩ [] := by
    intro more
    induction more with
    | nil =>
      intro buffer _
      rw [List.append_nil]
      exact Reads.refl _
    | cons b more ih =>
      intro buffer hmore
      rw [List.forall_mem_cons] at hmore
      obtain ⟨hspace, -, hslash, hgt, -⟩ := isNameByte_iff.mp (isNameByte_of_isAlpha hmore.1)
      have hbyte : Reads r contentOf ⟨c, last, .endName buffer⟩ [b] ⟨c, last, .endName (buffer ++ [b])⟩ [] := by
        refine reads_byte fun rest => ?_
        show Lexer.inEndName r contentOf ⟨c, last, .endName buffer⟩ buffer b rest = _
        simp [Lexer.inEndName, hspace, hslash, hgt, hmore.1, Lexer.enter]
      have hrest := hbyte.trans (ih (buffer ++ [b]) hmore.2)
      rw [List.singleton_append, List.append_assoc, List.singleton_append] at hrest
      exact hrest
  cases name with
  | nil => exact absurd rfl hne
  | cons b name =>
    rw [List.forall_mem_cons] at hletters
    have hfirst : Reads r contentOf ⟨c, last, .endOpen⟩ [b] ⟨c, last, .endName [b]⟩ [] := by
      refine reads_byte fun rest => ?_
      show Lexer.inEndOpen r contentOf ⟨c, last, .endOpen⟩ b rest = _
      unfold Lexer.inEndOpen
      rw [if_pos (by simpa using hdata), if_pos hletters.1]
      rfl
    have hgt : Reads r contentOf ⟨c, last, .endName ([b] ++ name)⟩ [0x3E] ⟨.data, last, .content⟩
        [.tag ⟨true, last, [], false⟩] := by
      refine reads_byte fun rest => ?_
      show Lexer.inEndName r contentOf ⟨c, last, .endName ([b] ++ name)⟩ ([b] ++ name) 0x3E rest = _
      have hname : ([b] ++ name).map lower = last := hlast
      unfold Lexer.inEndName
      rw [hname]
      simp [isSpace, Lexer.give]
    exact (((hlt.trans hslash).trans hfirst).trans (hbuffer name [b] hletters.2)).trans hgt

/-! ## Attributes -/

/-- The tag a lexer has read up to the end of its name or of an attribute. -/
def Settled (l : Lexer) (t : Tag) : Prop :=
  l.state = .tagName t ∨ l.state = .afterValue t ∨ ∃ t' name, l.state = .attrName t' name ∧ t = t'.add name []

theorem inAttrName_eq (l : Lexer) (t : Tag) (held : Text) {b : UInt8} (hb : isNameByte b = true) (heq : b ≠ 0x3D) :
    l.inAttrName contentOf t held b = l.enter (.attrName t (held ++ [lower b])) := by
  obtain ⟨hspace, -, hslash, hgt, hzero⟩ := isNameByte_iff.mp hb
  simp [Lexer.inAttrName, hspace, hslash, hgt, heq, shown_of_ne hzero]

/-- A blank and a name begin an attribute. -/
theorem reads_attrName {l : Lexer} {t : Tag} (hl : Settled l t) {name : Text} (hname : IsAttrName name) :
    Reads r contentOf l (0x20 :: name) { l with state := .attrName t (name.map lower) } [] := by
  have hbytes : ∀ more held : Text, (∀ b ∈ more, isNameByte b = true ∧ b ≠ 0x3D) →
      Reads r contentOf { l with state := .attrName t held } more
        { l with state := .attrName t (held ++ more.map lower) } [] := by
    intro more
    induction more with
    | nil =>
      intro held _
      rw [List.map_nil, List.append_nil]
      exact Reads.refl _
    | cons b more ih =>
      intro held hmore
      rw [List.forall_mem_cons] at hmore
      have hbyte : Reads r contentOf { l with state := .attrName t held } [b]
          { l with state := .attrName t (held ++ [lower b]) } [] := by
        refine reads_byte fun rest => ?_
        exact inAttrName_eq { l with state := .attrName t held } t held hmore.1.1 hmore.1.2
      have hrest := hbyte.trans (ih (held ++ [lower b]) hmore.2)
      rw [List.singleton_append, List.append_assoc, List.singleton_append] at hrest
      exact hrest
  obtain ⟨hne, hall⟩ := hname
  cases name with
  | nil => exact absurd rfl hne
  | cons b name =>
    rw [List.forall_mem_cons] at hall
    obtain ⟨hspace, -, hslash, hgt, -⟩ := isNameByte_iff.mp hall.1.1
    -- the blank ends what stands before it, the byte behind it begins the name
    have hfront : Reads r contentOf l [0x20, b] { l with state := .attrName t [lower b] } [] := by
      rcases hl with hstate | hstate | ⟨t', held, hstate, rfl⟩
      · have hblank : Reads r contentOf l [0x20] { l with state := .beforeName t } [] := by
          refine reads_byte fun rest => ?_
          unfold Lexer.step
          rw [hstate]
          rfl
        refine hblank.trans (reads_byte fun rest => ?_)
        show Lexer.inBeforeName contentOf { l with state := .beforeName t } t b = _
        unfold Lexer.inBeforeName
        rw [hspace, inAttrName_eq _ _ _ hall.1.1 hall.1.2]
        simp [hslash, hgt, hall.1.2, Lexer.enter]
      · have hblank : Reads r contentOf l [0x20] { l with state := .beforeName t } [] := by
          refine reads_byte fun rest => ?_
          unfold Lexer.step
          rw [hstate]
          rfl
        refine hblank.trans (reads_byte fun rest => ?_)
        show Lexer.inBeforeName contentOf { l with state := .beforeName t } t b = _
        unfold Lexer.inBeforeName
        rw [hspace, inAttrName_eq _ _ _ hall.1.1 hall.1.2]
        simp [hslash, hgt, hall.1.2, Lexer.enter]
      · have hblank : Reads r contentOf l [0x20] { l with state := .afterName t' held } [] := by
          refine reads_byte fun rest => ?_
          unfold Lexer.step
          rw [hstate]
          rfl
        refine hblank.trans (reads_byte fun rest => ?_)
        show Lexer.inAfterName contentOf { l with state := .afterName t' held } t' held b = _
        unfold Lexer.inAfterName
        rw [hspace, inAttrName_eq _ _ _ hall.1.1 hall.1.2]
        simp [hslash, hgt, hall.1.2, Lexer.enter]
    exact hfront.trans (hbytes name [lower b] hall.2)

/-- A byte of a value, spelled by a reference. -/
theorem reads_valueReference (l : Lexer) (t : Tag) (name held : Text) {taken chars : Text}
    (href : ∀ rest, charRef r true (taken ++ rest) = (chars, taken.length)) :
    Reads r contentOf { l with state := .quoted 0x22 t name held } (0x26 :: taken)
      { l with state := .quoted 0x22 t name (held ++ chars) } [] := by
  refine reads_skip fun rest => ?_
  show Lexer.inQuoted r { l with state := .quoted 0x22 t name held } 0x22 t name held 0x26 (taken ++ rest) = _
  unfold Lexer.inQuoted
  rw [href]
  rfl

/-- A byte of a value, spelled by itself. -/
theorem reads_valueByte (l : Lexer) (t : Tag) (name held : Text) {b : UInt8} (hquote : b ≠ 0x22) (hamp : b ≠ 0x26) :
    Reads r contentOf { l with state := .quoted 0x22 t name held } [b]
      { l with state := .quoted 0x22 t name (held ++ shown b) } [] := by
  refine reads_byte fun rest => ?_
  show Lexer.inQuoted r { l with state := .quoted 0x22 t name held } 0x22 t name held b rest = _
  simp [Lexer.inQuoted, hquote, hamp, Lexer.enter]

/-- An attribute with its value between quotes: `value` is read where `spelled` stands. -/
theorem reads_attr {l : Lexer} {t : Tag} (hl : Settled l t) {name : Text} (hname : IsAttrName name) {spelled value : Text}
    (hvalue : Reads r contentOf { l with state := .quoted 0x22 t (name.map lower) [] } spelled
      { l with state := .quoted 0x22 t (name.map lower) value } []) :
    Reads r contentOf l (0x20 :: name ++ 0x3D :: 0x22 :: spelled ++ [0x22])
      { l with state := .afterValue (t.add (name.map lower) value) } [] := by
  have hequals : Reads r contentOf { l with state := .attrName t (name.map lower) } [0x3D]
      { l with state := .beforeValue t (name.map lower) } [] := reads_byte fun rest => rfl
  have hopens : Reads r contentOf { l with state := .beforeValue t (name.map lower) } [0x22]
      { l with state := .quoted 0x22 t (name.map lower) [] } [] := reads_byte fun rest => rfl
  have hcloses : Reads r contentOf { l with state := .quoted 0x22 t (name.map lower) value } [0x22]
      { l with state := .afterValue (t.add (name.map lower) value) } [] := reads_byte fun rest => rfl
  have hall := ((((reads_attrName hl hname).trans hequals).trans hopens).trans hvalue).trans hcloses
  simpa only [List.append_assoc, List.cons_append, List.nil_append] using hall

/-- `>` ends a start tag, and its content begins. -/
theorem reads_gt {l : Lexer} {t : Tag} (hl : Settled l t) (hstart : t.ends = false) :
    Reads r contentOf l [0x3E] ⟨contentOf t.name, t.name, .content⟩ [.tag t] := by
  refine reads_byte fun rest => ?_
  unfold Lexer.step
  rcases hl with hstate | hstate | ⟨t', held, hstate, rfl⟩
  · rw [hstate]
    show l.give contentOf t = _
    simp [Lexer.give, hstart]
  · rw [hstate]
    show l.give contentOf t = _
    simp [Lexer.give, hstart]
  · rw [hstate]
    show l.give contentOf (t'.add held []) = _
    simp [Lexer.give, hstart]

end Reads

end HtmlTokens
