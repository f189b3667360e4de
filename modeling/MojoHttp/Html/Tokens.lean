import MojoHttp.Html
import MojoHttp.Lib.HtmlTokens

/-!
# What is built reads back

The tokens of the markup are the tags, attributes and text the calls named.

* **`escape_cases`** — a byte is spelled by itself or by a reference, never by a `<` or a quote.
* **`newlines_bytes`** — newlines are normalised within the texts and values, and nowhere else.
* **`reads_item`** — each item reads as itself, whatever follows.
* **`lex_items`** — so do all in turn, where no element that holds text only holds more.
-/

namespace MojoHttp

open HtmlTokens HtmlByte

/-! ## The tokens of a page -/

/-- A text in front of items, one with the text they begin with. -/
def textThen (s : Bytes) : List HtmlItem → List HtmlItem
  | .text t :: items => .text (s ++ t) :: items
  | items => .text s :: items

/-- Texts next to each other are one. -/
def joinTexts : List HtmlItem → List HtmlItem
  | [] => []
  | .text s :: items => textThen s (joinTexts items)
  | .start tag attrs :: items => .start tag attrs :: joinTexts items
  | .stop tag :: items => .stop tag :: joinTexts items

/-- Newlines as HTML reads them. -/
def HtmlItem.normal : HtmlItem → HtmlItem
  | .start tag attrs => .start tag (attrs.map fun a => (a.1, a.2.map newlines))
  | .text s => .text (newlines s)
  | .stop tag => .stop tag

/-- The start tag, its names folded, the first of each name kept. -/
def startTag (tag : Bytes) (attrs : List (Bytes × Option Bytes)) : Tag :=
  Tag.addAll ⟨false, tag.map lower, [], false⟩ (attrs.map fun a => (a.1.map lower, (a.2.getD []).flatMap shown))

/-- The tokens of an item in content `c`. -/
def HtmlItem.tokens (c : Content) : HtmlItem → List Token
  | .start tag attrs => [.tag (startTag tag attrs)]
  | .text s => (s.flatMap c.shows).map Token.char
  | .stop tag => [.tag ⟨true, tag.map lower, [], false⟩]

/-- The content behind an item, and the name of the last start tag. -/
def HtmlItem.next (scripting : Bool) (c : Content) (last : Bytes) : HtmlItem → Content × Bytes
  | .start tag _ => (contentOf scripting (tag.map lower), tag.map lower)
  | .text _ => (c, last)
  | .stop _ => (.data, last)

/-- The tokens of the items in turn. -/
def tokensFrom (scripting : Bool) : Content → (last : Bytes) → List HtmlItem → List Token
  | _, _, [] => []
  | c, last, item :: items =>
    item.tokens c ++ tokensFrom scripting (item.next scripting c last).1 (item.next scripting c last).2 items

/-- The tokens of a page. -/
def pageTokens (scripting : Bool) (items : List HtmlItem) : List Token :=
  tokensFrom scripting .data [] ((joinTexts items).map HtmlItem.normal)

/-- An item fits the content it stands in: tags in data, text where references are read, and the end of an element
that holds text only in it. -/
def HtmlItem.Fits (c : Content) (last : Bytes) : HtmlItem → Prop
  | .start _ _ => c = .data
  | .text _ => c.Refers
  | .stop tag => c = .data ∨ (c ≠ .plaintext ∧ tag.map lower = last)

def FitsFrom (scripting : Bool) : Content → (last : Bytes) → List HtmlItem → Prop
  | _, _, [] => True
  | c, last, item :: items =>
    item.Fits c last ∧ FitsFrom scripting (item.next scripting c last).1 (item.next scripting c last).2 items

/-- Nothing stands in `script`, `style` and the like, only text in `title` and `textarea`. -/
def PageFits (scripting : Bool) (items : List HtmlItem) : Prop := FitsFrom scripting .data [] items

/-- The names are names of HTML. -/
def HtmlItem.Named : HtmlItem → Prop
  | .start tag attrs => IsTagName tag ∧ ∀ a ∈ attrs, IsAttrName a.1
  | .text _ => True
  | .stop tag => IsTagName tag

/-- The names a call gives are names of HTML. -/
def HtmlOp.Named : HtmlOp → Prop
  | .openTag tag => IsTagName tag
  | .attr name _ => IsAttrName name
  | .flag name => IsAttrName name
  | .swap v verb url target push header =>
    ∀ kind, ∀ a ∈ Page.swapWrites kind v verb url target push header, IsAttrName a.1
  | .text _ => True
  | .close tag => IsTagName tag

/-! ## Texts next to each other -/

/-- No text stands next to another. -/
def Separated : List HtmlItem → Prop
  | .text _ :: .text _ :: _ => False
  | _ :: items => Separated items
  | [] => True

theorem separated_textThen (s : Bytes) {items : List HtmlItem} (h : Separated items) : Separated (textThen s items) := by
  cases items with
  | nil => trivial
  | cons next rest =>
    cases next with
    | start tag attrs => exact h
    | stop tag => exact h
    | text t =>
      -- the join of the two stands where the second stood
      cases rest with
      | nil => trivial
      | cons third rest => cases third <;> exact h

theorem separated_joinTexts (items : List HtmlItem) : Separated (joinTexts items) := by
  induction items with
  | nil => trivial
  | cons item items ih =>
    cases item with
    | start tag attrs => exact ih
    | stop tag => exact ih
    | text s => exact separated_textThen s ih

theorem bytes_textThen (s : Bytes) (items : List HtmlItem) : (textThen s items).flatMap HtmlItem.bytes =
    s.flatMap htmlEscapeOf ++ items.flatMap HtmlItem.bytes := by
  cases items with
  | nil => rfl
  | cons next rest => cases next <;> simp [textThen, HtmlItem.bytes]

theorem flatMap_joinTexts (items : List HtmlItem) :
    (joinTexts items).flatMap HtmlItem.bytes = items.flatMap HtmlItem.bytes := by
  induction items with
  | nil => rfl
  | cons item items ih => cases item <;> simp [joinTexts, bytes_textThen, ih, HtmlItem.bytes]

theorem named_textThen (s : Bytes) {items : List HtmlItem} (h : ∀ item ∈ items, item.Named) :
    ∀ item ∈ textThen s items, item.Named := by
  cases items with
  | nil => exact List.forall_mem_cons.mpr ⟨trivial, h⟩
  | cons next rest =>
    cases next with
    | start tag attrs => exact List.forall_mem_cons.mpr ⟨trivial, h⟩
    | stop tag => exact List.forall_mem_cons.mpr ⟨trivial, h⟩
    | text t => exact List.forall_mem_cons.mpr ⟨trivial, (List.forall_mem_cons.mp h).2⟩

theorem named_joinTexts {items : List HtmlItem} (h : ∀ item ∈ items, item.Named) :
    ∀ item ∈ joinTexts items, item.Named := by
  induction items with
  | nil => exact h
  | cons item items ih =>
    rw [List.forall_mem_cons] at h
    cases item with
    | start tag attrs => exact List.forall_mem_cons.mpr ⟨h.1, ih h.2⟩
    | stop tag => exact List.forall_mem_cons.mpr ⟨h.1, ih h.2⟩
    | text s => exact named_textThen s (ih h.2)

/-! ## Newlines -/

/-- A byte that is escaped, or stands for itself: never by a `<`, a quote or an ampersand alone. -/
theorem escape_cases {r : References} (hr : r.Standard) (inAttr : Bool) (b : UInt8) :
    (htmlEscapeOf b = [b] ∧ b ≠ 0x26 ∧ b ≠ 0x3C ∧ b ≠ 0x22) ∨
      (b ≠ 0 ∧ b ≠ 0x0D ∧ b ≠ 0x0A ∧ ∃ taken, htmlEscapeOf b = 0x26 :: taken ∧ (∀ c ∈ taken, c ≠ 0x0D) ∧
        ∀ rest, charRef r inAttr (taken ++ rest) = ([b], taken.length)) := by
  unfold htmlEscapeOf
  by_cases hamp : b = 0x26
  · subst hamp
    refine Or.inr ⟨by decide, by decide, by decide, [0x61, 0x6D, 0x70, 0x3B], rfl, by decide, fun rest => ?_⟩
    exact charRef_named hr hr.amp rfl (by decide) (by decide) inAttr rest
  by_cases hlt : b = 0x3C
  · subst hlt
    refine Or.inr ⟨by decide, by decide, by decide, [0x6C, 0x74, 0x3B], rfl, by decide, fun rest => ?_⟩
    exact charRef_named hr hr.lt rfl (by decide) (by decide) inAttr rest
  by_cases hgt : b = 0x3E
  · subst hgt
    refine Or.inr ⟨by decide, by decide, by decide, [0x67, 0x74, 0x3B], rfl, by decide, fun rest => ?_⟩
    exact charRef_named hr hr.gt rfl (by decide) (by decide) inAttr rest
  by_cases hquot : b = 0x22
  · subst hquot
    refine Or.inr ⟨by decide, by decide, by decide, [0x71, 0x75, 0x6F, 0x74, 0x3B], rfl, by decide, fun rest => ?_⟩
    exact charRef_named hr hr.quot rfl (by decide) (by decide) inAttr rest
  by_cases hapos : b = 0x27
  · subst hapos
    refine Or.inr ⟨by decide, by decide, by decide, [0x23, 0x78, 0x32, 0x37, 0x3B], rfl, by decide, fun rest => ?_⟩
    exact charRef_apostrophe inAttr rest
  · exact Or.inl ⟨by simp [hamp, hlt, hgt, hquot, hapos], hamp, hlt, hquot⟩

/-- The newlines of a text, escaped or not. -/
theorem newlinesFrom_escaped {r : References} (hr : r.Standard) (s rest : Bytes) (cr : Bool) :
    ∃ cr', newlinesFrom cr (s.flatMap htmlEscapeOf ++ rest) =
      (newlinesFrom cr s).flatMap htmlEscapeOf ++ newlinesFrom cr' rest := by
  induction s generalizing cr with
  | nil => exact ⟨cr, rfl⟩
  | cons b s ih =>
    rw [List.flatMap_cons, List.append_assoc]
    rcases escape_cases hr false b with ⟨hself, -⟩ | ⟨-, hcr, hlf, taken, htaken, hclean, -⟩
    · rw [hself, List.singleton_append, newlinesFrom_cons, newlinesFrom_cons]
      split
      · obtain ⟨cr', hrest⟩ := ih true
        refine ⟨cr', ?_⟩
        rw [hrest, List.flatMap_cons, show htmlEscapeOf 0x0A = [0x0A] by decide]
        rfl
      · split
        · exact ih false
        · obtain ⟨cr', hrest⟩ := ih false
          refine ⟨cr', ?_⟩
          rw [hrest, List.flatMap_cons, hself]
          rfl
    · obtain ⟨cr', hrest⟩ := ih false
      refine ⟨cr', ?_⟩
      have hpiece : ∀ c ∈ 0x26 :: taken, c ≠ 0x0D := List.forall_mem_cons.mpr ⟨by decide, hclean⟩
      rw [htaken, newlinesFrom_clean hpiece (Or.inr (by decide)), hrest, newlinesFrom_cons]
      simp [hcr, hlf, htaken]

theorem nameByte_clean {name : Bytes} (h : ∀ b ∈ name, isNameByte b = true) : ∀ b ∈ name, b ≠ 0x0D :=
  fun b hb => (isNameByte_iff.mp (h b hb)).2.1

/-- The newlines of an attribute are those of its value. -/
theorem newlinesFrom_attr {r : References} (hr : r.Standard) {a : Bytes × Option Bytes} (ha : IsAttrName a.1)
    (rest : Bytes) :
    newlinesFrom false (attrBytes a ++ rest) = attrBytes (a.1, a.2.map newlines) ++ newlinesFrom false rest := by
  obtain ⟨name, value⟩ := a
  have hname : ∀ b ∈ _SPACE :: name, b ≠ 0x0D :=
    List.forall_mem_cons.mpr ⟨by decide, nameByte_clean fun b hb => (ha.2 b hb).1⟩
  cases value with
  | none =>
    show newlinesFrom false (_SPACE :: name ++ rest) = _SPACE :: name ++ _
    rw [newlinesFrom_clean hname (Or.inl rfl)]
  | some value =>
    obtain ⟨cr, hvalue⟩ := newlinesFrom_escaped hr value ([_QUOTE] ++ rest) false
    have hquotes : newlinesFrom false ([_EQ, _QUOTE] ++ (value.flatMap htmlEscapeOf ++ ([_QUOTE] ++ rest))) =
        [_EQ, _QUOTE] ++ ((newlines value).flatMap htmlEscapeOf ++ ([_QUOTE] ++ newlinesFrom false rest)) := by
      have hopens : ∀ c ∈ [_EQ, _QUOTE], c ≠ 0x0D := by decide
      have hcloses : ∀ c ∈ [_QUOTE], c ≠ 0x0D := by decide
      rw [newlinesFrom_clean hopens (Or.inl rfl), hvalue, newlinesFrom_clean hcloses (Or.inr (by decide))]
      rfl
    have hsplit : attrBytes (name, some value) ++ rest =
        _SPACE :: name ++ ([_EQ, _QUOTE] ++ (value.flatMap htmlEscapeOf ++ ([_QUOTE] ++ rest))) := by
      simp [attrBytes]
    rw [hsplit, newlinesFrom_clean hname (Or.inl rfl), hquotes]
    simp [attrBytes]

theorem newlinesFrom_attrs {r : References} (hr : r.Standard) {attrs : List (Bytes × Option Bytes)}
    (hattrs : ∀ a ∈ attrs, IsAttrName a.1) (rest : Bytes) :
    newlinesFrom false (attrs.flatMap attrBytes ++ rest) =
      (attrs.map fun a => (a.1, a.2.map newlines)).flatMap attrBytes ++ newlinesFrom false rest := by
  induction attrs with
  | nil => rfl
  | cons a attrs ih =>
    rw [List.forall_mem_cons] at hattrs
    rw [List.flatMap_cons, List.append_assoc, newlinesFrom_attr hr hattrs.1, ih hattrs.2, List.map_cons,
      List.flatMap_cons, List.append_assoc]

/-- An item that is no text begins with a `<`, so a newline in front of it is no part of one within it. -/
theorem newlinesFrom_tag {r : References} (hr : r.Standard) {item : HtmlItem} (hnamed : item.Named)
    (htag : ∀ s, item ≠ .text s) (cr : Bool) (rest : Bytes) :
    newlinesFrom cr (item.bytes ++ rest) = item.normal.bytes ++ newlinesFrom false rest := by
  have hgt : ∀ c ∈ [_GT], c ≠ 0x0D := by decide
  cases item with
  | text s => exact absurd rfl (htag s)
  | start tag attrs =>
    have hname : ∀ b ∈ _LT :: tag, b ≠ 0x0D := List.forall_mem_cons.mpr ⟨by decide, nameByte_clean hnamed.1.2⟩
    have hsplit : (HtmlItem.start tag attrs).bytes ++ rest = _LT :: tag ++ (attrs.flatMap attrBytes ++ ([_GT] ++ rest)) := by
      simp [HtmlItem.bytes]
    rw [hsplit, newlinesFrom_clean hname (Or.inr (by decide)), newlinesFrom_attrs hr hnamed.2,
      newlinesFrom_clean hgt (Or.inl rfl)]
    simp [HtmlItem.bytes, HtmlItem.normal]
  | stop tag =>
    have hname : ∀ b ∈ _LT :: (_SLASH :: tag ++ [_GT]), b ≠ 0x0D := by
      intro b hb
      simp only [List.cons_append, List.mem_cons, List.mem_append, List.not_mem_nil, or_false] at hb
      rcases hb with rfl | rfl | hb | rfl
      · decide
      · decide
      · exact nameByte_clean hnamed.2 b hb
      · decide
    show newlinesFrom cr (_LT :: (_SLASH :: tag ++ [_GT]) ++ rest) = _LT :: (_SLASH :: tag ++ [_GT]) ++ _
    rw [newlinesFrom_clean hname (Or.inr (by decide))]

/-- **Newlines** are normalised item by item. -/
theorem newlines_bytes {r : References} (hr : r.Standard) {items : List HtmlItem} (hnamed : ∀ item ∈ items, item.Named)
    (hsep : Separated items) :
    newlines (items.flatMap HtmlItem.bytes) = (items.map HtmlItem.normal).flatMap HtmlItem.bytes := by
  -- a CR at the end of a text is in front of a tag
  have hfrom : ∀ (items : List HtmlItem) (cr : Bool), (∀ item ∈ items, item.Named) → Separated items →
      (cr = false ∨ ∀ s, items.head? ≠ some (.text s)) →
      newlinesFrom cr (items.flatMap HtmlItem.bytes) = (items.map HtmlItem.normal).flatMap HtmlItem.bytes := by
    intro items
    induction items with
    | nil =>
      intro cr _ _ _
      rfl
    | cons item items ih =>
      intro cr hnamed hsep hfirst
      rw [List.forall_mem_cons] at hnamed
      rw [List.flatMap_cons, List.map_cons, List.flatMap_cons]
      have hrest : Separated items := by
        cases item with
        | start tag attrs => exact hsep
        | stop tag => exact hsep
        | text s =>
          cases items with
          | nil => trivial
          | cons next items =>
            cases next with
            | text t => exact absurd hsep id
            | start tag attrs => exact hsep
            | stop tag => exact hsep
      by_cases htag : ∀ s, item ≠ .text s
      · rw [newlinesFrom_tag hr hnamed.1 htag, ih false hnamed.2 hrest (Or.inl rfl)]
      · rw [not_forall] at htag
        obtain ⟨s, hs⟩ := htag
        rw [not_not] at hs
        subst hs
        have hcr : cr = false := by
          rcases hfirst with hcr | hhead
          · exact hcr
          · exact absurd rfl (hhead s)
        subst hcr
        obtain ⟨cr', htext⟩ := newlinesFrom_escaped hr s (items.flatMap HtmlItem.bytes) false
        have hnext : ∀ t, items.head? ≠ some (.text t) := by
          intro t ht
          cases items with
          | nil => cases ht
          | cons next items =>
            rw [List.head?_cons, Option.some.injEq] at ht
            rw [ht] at hsep
            exact hsep
        show newlinesFrom false (s.flatMap htmlEscapeOf ++ _) = _
        rw [htext, ih cr' hnamed.2 hrest (Or.inr hnext)]
        rfl
  exact hfrom items false hnamed hsep (Or.inl rfl)

/-! ## Reading an item -/

section

variable {r : References} (hr : r.Standard) {scripting : Bool}

include hr

/-- Escaped text reads as the text. -/
theorem reads_text {c : Content} (hc : c.Refers) (last s : Bytes) :
    Reads r (contentOf scripting) ⟨c, last, .content⟩ (s.flatMap htmlEscapeOf) ⟨c, last, .content⟩
      ((s.flatMap c.shows).map Token.char) := by
  rw [List.map_flatMap]
  refine reads_flatMap fun b _ => ?_
  rcases escape_cases hr false b with ⟨hself, hamp, hlt, -⟩ | ⟨hzero, -, -, taken, htaken, -, href⟩
  · rw [hself]
    exact reads_plain hc hamp hlt
  · have hshows : c.shows b = [b] := by
      unfold Content.shows
      rw [shown_of_ne hzero, ite_self]
    rw [htaken, hshows]
    exact reads_reference hc href

/-- An escaped value reads as the value. -/
theorem reads_value (l : Lexer) (t : Tag) (name value : Bytes) :
    Reads r (contentOf scripting) { l with state := .quoted 0x22 t name [] } (value.flatMap htmlEscapeOf)
      { l with state := .quoted 0x22 t name (value.flatMap shown) } [] := by
  have hbyte : ∀ held : Bytes, ∀ b ∈ value, Reads r (contentOf scripting) { l with state := .quoted 0x22 t name held }
      (htmlEscapeOf b) { l with state := .quoted 0x22 t name (held ++ shown b) } [] := by
    intro held b _
    rcases escape_cases hr true b with ⟨hself, hamp, -, hquote⟩ | ⟨hzero, -, -, taken, htaken, -, href⟩
    · rw [hself]
      exact reads_valueByte l t name held hquote hamp
    · rw [htaken, shown_of_ne hzero]
      exact reads_valueReference l t name held href
  let hold (held : Bytes) : Lexer := { l with state := .quoted 0x22 t name held }
  exact reads_held (show ∀ held, ∀ b ∈ value, Reads r (contentOf scripting) (hold held) (htmlEscapeOf b)
    (hold (held ++ shown b)) [] from hbyte) []

/-- An attribute is added to the tag. -/
theorem reads_attrBytes {l : Lexer} {t : Tag} (hl : Settled l t) {a : Bytes × Option Bytes} (ha : IsAttrName a.1) :
    ∃ l', Reads r (contentOf scripting) l (attrBytes a) l' [] ∧
      Settled l' (t.add (a.1.map lower) ((a.2.getD []).flatMap shown)) := by
  obtain ⟨name, value⟩ := a
  cases value with
  | none => exact ⟨_, reads_attrName hl ha, Or.inr (Or.inr ⟨t, name.map lower, rfl, rfl⟩)⟩
  | some value => exact ⟨_, reads_attr hl ha (reads_value hr l t (name.map lower) value), Or.inr (Or.inl rfl)⟩

theorem reads_attrs {l : Lexer} {t : Tag} (hl : Settled l t) {attrs : List (Bytes × Option Bytes)}
    (hattrs : ∀ a ∈ attrs, IsAttrName a.1) :
    ∃ l', Reads r (contentOf scripting) l (attrs.flatMap attrBytes) l' [] ∧
      Settled l' (t.addAll (attrs.map fun a => (a.1.map lower, (a.2.getD []).flatMap shown))) := by
  induction attrs generalizing l t with
  | nil => exact ⟨l, Reads.refl l, hl⟩
  | cons a attrs ih =>
    rw [List.forall_mem_cons] at hattrs
    obtain ⟨l', hfirst, hl'⟩ := reads_attrBytes hr hl hattrs.1
    obtain ⟨l'', hrest, hl''⟩ := ih hl' hattrs.2
    exact ⟨l'', hfirst.trans hrest, hl''⟩

/-- **An item** reads as itself, whatever follows. -/
theorem reads_item {c : Content} {last : Bytes} (hlast : c ≠ .data → contentOf scripting last = c) {item : HtmlItem}
    (hnamed : item.Named) (hfits : item.Fits c last) :
    Reads r (contentOf scripting) ⟨c, last, .content⟩ item.bytes
      ⟨(item.next scripting c last).1, (item.next scripting c last).2, .content⟩ (item.tokens c) := by
  cases item with
  | text s => exact reads_text hr hfits last s
  | start tag attrs =>
    have hdata : c = .data := hfits
    subst hdata
    have hopened : Settled ⟨.data, last, .tagName ⟨false, tag.map lower, [], false⟩⟩ _ := Or.inl rfl
    obtain ⟨l, hattrs, hl⟩ := @reads_attrs r hr scripting _ _ hopened attrs hnamed.2
    obtain ⟨hname, hends⟩ := Tag.addAll_name ⟨false, tag.map lower, [], false⟩
      (attrs.map fun a => (a.1.map lower, (a.2.getD []).flatMap shown))
    have hall := ((reads_open hnamed.1).trans hattrs).trans (reads_gt hl hends)
    rw [hname] at hall
    exact hall
  | stop tag =>
    by_cases hdata : c = .data
    · subst hdata
      exact reads_endTag hnamed
    · obtain ⟨hplain, htag⟩ := (show c = .data ∨ (c ≠ .plaintext ∧ tag.map lower = last) from hfits).resolve_left hdata
      have htext : contentOf scripting last ≠ .data := by
        rw [hlast hdata]
        exact hdata
      have hletters := letters_of_contentOf htext
      have hne : tag ≠ [] := by
        rintro rfl
        exact hletters.1 htag.symm
      have hall : ∀ b ∈ tag, isAlpha b = true := fun b hb =>
        lower_letters (hletters.2 (lower b) (htag ▸ List.mem_map_of_mem hb))
      have hread : Reads r (contentOf scripting) ⟨c, last, .content⟩ (0x3C :: 0x2F :: tag ++ [0x3E])
          ⟨.data, last, .content⟩ [.tag ⟨true, last, [], false⟩] := reads_endOfText hdata hplain htag hne hall
      rw [← htag] at hread ⊢
      exact hread

/-- **The items in turn**. -/
theorem lex_items {items : List HtmlItem} (hnamed : ∀ item ∈ items, item.Named) {c : Content} {last : Bytes}
    (hlast : c ≠ .data → contentOf scripting last = c) (hfits : FitsFrom scripting c last items) :
    lex r (contentOf scripting) ⟨c, last, .content⟩ 0 (items.flatMap HtmlItem.bytes) = tokensFrom scripting c last items := by
  induction items generalizing c last with
  | nil => rfl
  | cons item items ih =>
    rw [List.forall_mem_cons] at hnamed
    have hnext : (item.next scripting c last).1 ≠ .data →
        contentOf scripting (item.next scripting c last).2 = (item.next scripting c last).1 := by
      cases item with
      | text s => exact hlast
      | start tag attrs => exact fun _ => rfl
      | stop tag => exact fun hne => absurd rfl hne
    rw [List.flatMap_cons, reads_item hr hlast hnamed.1 hfits.1, ih hnamed.2 hnext hfits.2]
    rfl

end

/-! ## What fits, fits joined and with its newlines read -/

theorem fits_textThen {scripting : Bool} {c : Content} {last s : Bytes} {items : List HtmlItem} (hc : c.Refers)
    (h : FitsFrom scripting c last items) : FitsFrom scripting c last (textThen s items) := by
  cases items with
  | nil => exact ⟨hc, h⟩
  | cons next rest =>
    cases next with
    | text t => exact h
    | start tag attrs => exact ⟨hc, h⟩
    | stop tag => exact ⟨hc, h⟩

theorem fits_joinTexts {scripting : Bool} {c : Content} {last : Bytes} {items : List HtmlItem}
    (h : FitsFrom scripting c last items) : FitsFrom scripting c last (joinTexts items) := by
  induction items generalizing c last with
  | nil => exact h
  | cons item items ih =>
    cases item with
    | start tag attrs => exact ⟨h.1, ih h.2⟩
    | stop tag => exact ⟨h.1, ih h.2⟩
    | text s => exact fits_textThen h.1 (ih h.2)

theorem fits_normal {scripting : Bool} {c : Content} {last : Bytes} {items : List HtmlItem}
    (h : FitsFrom scripting c last items) : FitsFrom scripting c last (items.map HtmlItem.normal) := by
  induction items generalizing c last with
  | nil => exact h
  | cons item items ih =>
    cases item with
    | start tag attrs => exact ⟨h.1, ih h.2⟩
    | stop tag => exact ⟨h.1, ih h.2⟩
    | text s => exact ⟨h.1, ih h.2⟩

theorem named_normal {items : List HtmlItem} (h : ∀ item ∈ items, item.Named) :
    ∀ item ∈ items.map HtmlItem.normal, item.Named := by
  intro item hitem
  obtain ⟨before, hbefore, rfl⟩ := List.mem_map.mp hitem
  have hnamed := h before hbefore
  cases before with
  | text s => trivial
  | stop tag => exact hnamed
  | start tag attrs =>
    refine ⟨hnamed.1, ?_⟩
    intro a ha
    obtain ⟨a', ha', rfl⟩ := List.mem_map.mp ha
    exact hnamed.2 a' ha'

/-- **The tokens of a page** are its tags, attributes and text. -/
theorem tokenize_items {r : References} (hr : r.Standard) {scripting : Bool} {items : List HtmlItem}
    (hnamed : ∀ item ∈ items, item.Named) (hfits : PageFits scripting items) :
    tokenize r (contentOf scripting) (items.flatMap HtmlItem.bytes) = pageTokens scripting items := by
  have hjoined := named_joinTexts hnamed
  unfold tokenize pageTokens
  rw [← flatMap_joinTexts, newlines_bytes hr hjoined (separated_joinTexts items)]
  exact lex_items hr (named_normal hjoined) (fun hne => absurd rfl hne) (fits_normal (fits_joinTexts hfits))

/-! ## The names the calls give -/

theorem named_write {p : Page} (hp : ∀ item ∈ p.items, item.Named) {attrs : List (Bytes × Option Bytes)}
    (hattrs : ∀ a ∈ attrs, IsAttrName a.1) : ∀ item ∈ (p.write attrs).items, item.Named := by
  obtain ⟨done, pending⟩ := p
  cases pending with
  | none => exact hp
  | some t =>
    intro item hitem
    have hstart : (HtmlItem.start t.1 t.2).Named := hp _ (by simp [Page.items])
    simp only [Page.write, Page.items, Option.map_some, Option.toList_some, List.mem_append, List.mem_singleton] at hitem
    rcases hitem with hdone | rfl
    · exact hp item (List.mem_append_left _ hdone)
    · refine ⟨hstart.1, fun a ha => ?_⟩
      rcases List.mem_append.mp ha with hold | hnew
      · exact hstart.2 a hold
      · exact hattrs a hnew

theorem named_step {p : Page} (hp : ∀ item ∈ p.items, item.Named) {op : HtmlOp} (hop : op.Named) :
    ∀ item ∈ (p.step op).items, item.Named := by
  have hsnoc : ∀ last : HtmlItem, last.Named → ∀ item ∈ p.items ++ [last], item.Named := by
    intro last hlast item hitem
    rcases List.mem_append.mp hitem with hin | hin
    · exact hp item hin
    · rw [List.mem_singleton.mp hin]
      exact hlast
  cases op with
  | openTag tag => exact hsnoc (.start tag []) ⟨hop, fun a ha => absurd ha List.not_mem_nil⟩
  | attr name value =>
    refine named_write hp fun a ha => ?_
    rw [List.mem_singleton.mp ha]
    exact hop
  | flag name =>
    refine named_write hp fun a ha => ?_
    rw [List.mem_singleton.mp ha]
    exact hop
  | swap v verb url target push header => exact named_write hp (hop _)
  | text s =>
    intro item hitem
    exact hsnoc (.text s) trivial item (by simpa [Page.step, Page.items] using hitem)
  | close tag =>
    intro item hitem
    exact hsnoc (.stop tag) hop item (by simpa [Page.step, Page.items] using hitem)

theorem named_pageItems {ops : List HtmlOp} (hops : ∀ op ∈ ops, op.Named) : ∀ item ∈ pageItems ops, item.Named := by
  have hrun : ∀ (ops : List HtmlOp) (p : Page), (∀ op ∈ ops, op.Named) → (∀ item ∈ p.items, item.Named) →
      ∀ item ∈ (p.run ops).items, item.Named := by
    intro ops
    induction ops with
    | nil => exact fun p _ hp => hp
    | cons op ops ih =>
      intro p hops hp
      rw [List.forall_mem_cons] at hops
      exact ih (p.step op) hops.2 (named_step hp hops.1)
  exact hrun ops ⟨[], none⟩ hops fun item hitem => absurd hitem List.not_mem_nil

/-! ## The tags of the tokens -/

/-- A tag without its values. -/
def tagShape (t : Tag) : Tag := { t with attrs := t.attrs.map fun a => (a.1, []) }

/-- What a token is besides text. -/
def tokenShape : Token → Option Token
  | .tag t => some (.tag (tagShape t))
  | .char _ => none
  | other => some other

/-- What an item is besides text. -/
def HtmlItem.shape : HtmlItem → Option Token
  | .start tag attrs => some (.tag (startTag tag (attrs.map fun a => (a.1, none))))
  | .text _ => none
  | .stop tag => some (.tag ⟨true, tag.map lower, [], false⟩)

theorem shape_add (t : Tag) (name value : Bytes) : tagShape (t.add name value) = (tagShape t).add name [] := by
  have hany : ((tagShape t).attrs.any fun a => a.1 == name) = t.attrs.any fun a => a.1 == name := by
    simp [tagShape, List.any_map, Function.comp_def]
  unfold Tag.add
  rw [hany]
  split
  · rfl
  · simp [tagShape]

/-- The names of a start tag do not depend on its values. -/
theorem shape_startTag (tag : Bytes) (attrs : List (Bytes × Option Bytes)) :
    tagShape (startTag tag attrs) = startTag tag (attrs.map fun a => (a.1, none)) := by
  have hfold : ∀ (attrs : List (Bytes × Option Bytes)) (t : Tag),
      tagShape (t.addAll (attrs.map fun a => (a.1.map lower, (a.2.getD []).flatMap shown))) =
        (tagShape t).addAll (attrs.map fun a => (a.1.map lower, [])) := by
    intro attrs
    induction attrs with
    | nil => exact fun t => rfl
    | cons a attrs ih =>
      intro t
      have hrest := ih (t.add (a.1.map lower) ((a.2.getD []).flatMap shown))
      rw [shape_add] at hrest
      exact hrest
  have hall := hfold attrs ⟨false, tag.map lower, [], false⟩
  unfold startTag
  rw [hall, List.map_map]
  rfl

theorem shape_tokensFrom (scripting : Bool) (c : Content) (last : Bytes) (items : List HtmlItem) :
    (tokensFrom scripting c last items).filterMap tokenShape = items.filterMap HtmlItem.shape := by
  have hchars : ∀ s : Bytes, (s.map Token.char).filterMap tokenShape = [] := by
    intro s
    rw [List.filterMap_map, List.filterMap_eq_nil_iff]
    exact fun b _ => rfl
  induction items generalizing c last with
  | nil => rfl
  | cons item items ih =>
    unfold tokensFrom
    rw [List.filterMap_append, ih, List.filterMap_cons]
    cases item with
    | text s => rw [HtmlItem.tokens, hchars, HtmlItem.shape, List.nil_append]
    | stop tag => simp [HtmlItem.tokens, HtmlItem.shape, tokenShape, tagShape]
    | start tag attrs => simp [HtmlItem.tokens, HtmlItem.shape, tokenShape, shape_startTag]

theorem shape_textThen (s : Bytes) (items : List HtmlItem) :
    (textThen s items).filterMap HtmlItem.shape = items.filterMap HtmlItem.shape := by
  cases items with
  | nil => rfl
  | cons next rest => cases next <;> simp [textThen, HtmlItem.shape, List.filterMap_cons]

theorem shape_joinTexts (items : List HtmlItem) :
    (joinTexts items).filterMap HtmlItem.shape = items.filterMap HtmlItem.shape := by
  induction items with
  | nil => rfl
  | cons item items ih => cases item <;> simp [joinTexts, shape_textThen, ih, HtmlItem.shape, List.filterMap_cons]

/-- **No string adds to a page**: but for its text, the tokens are those of the tags and names the calls gave. -/
theorem shape_pageTokens (scripting : Bool) (items : List HtmlItem) :
    (pageTokens scripting items).filterMap tokenShape = items.filterMap HtmlItem.shape := by
  have hnormal : ∀ item : HtmlItem, item.normal.shape = item.shape := by
    intro item
    cases item with
    | text s => rfl
    | stop tag => rfl
    | start tag attrs => simp [HtmlItem.normal, HtmlItem.shape, Function.comp_def]
  unfold pageTokens
  rw [shape_tokensFrom, List.filterMap_map, ← shape_joinTexts items]
  exact List.filterMap_congr fun item _ => hnormal item

/-! ## The whole -/

/-- **Built HTML cannot be broken out of.** For every sequence of calls whose names are names of HTML and whose items
fit the elements they stand in, the tokens of the markup are the tags, the attributes and the texts the calls
named, in their order; so for the expressions. No text and no value adds a tag, an attribute or a comment. -/
theorem built_html_reads_back (r : References) (hr : r.Standard) (scripting : Bool) :
    (∀ ops : List HtmlOp, (∀ op ∈ ops, op.Named) → PageFits scripting (pageItems ops) →
      tokenize r (contentOf scripting) (Html.build ops) = pageTokens scripting (pageItems ops)) ∧
    (∀ es : List Markup, (∀ item ∈ Markup.itemsAll es, item.Named) → PageFits scripting (Markup.itemsAll es) →
      ∃ texts, Markup.renderAll es = .ok texts ∧
        tokenize r (contentOf scripting) texts.flatten = pageTokens scripting (Markup.itemsAll es)) ∧
    ∀ items, (pageTokens scripting items).filterMap tokenShape = items.filterMap HtmlItem.shape := by
  refine ⟨?_, ?_, shape_pageTokens scripting⟩
  · intro ops hops hfits
    rw [build_eq]
    exact tokenize_items hr (named_pageItems hops) hfits
  · intro es hnamed hfits
    obtain ⟨texts, htexts, hflat⟩ := Markup.renderAll_eq es
    refine ⟨texts, htexts, ?_⟩
    rw [hflat]
    exact tokenize_items hr hnamed hfits

/-- The references of markup. -/
def markupReferences : References :=
  ⟨[(ascii "amp;", ascii "&"), (ascii "amp", ascii "&"), (ascii "lt;", ascii "<"), (ascii "lt", ascii "<"),
    (ascii "gt;", ascii ">"), (ascii "gt", ascii ">"), (ascii "quot;", ascii "\""), (ascii "quot", ascii "\""),
    (ascii "apos;", ascii "'")]⟩

theorem markupReferences_standard : markupReferences.Standard where
  amp := by decide
  lt := by decide
  gt := by decide
  quot := by decide
  one := by decide
  semicolon := by decide

/-- A paragraph whose class and text try to end it. -/
def hostilePage : List HtmlOp :=
  [.openTag (ascii "p"), .attr (ascii "class") (ascii "\"><script>"), .text (ascii "</p><!-- &lt; 'x'"), .close (ascii "p")]

theorem built_html_reads_back_hostile :
    tokenize markupReferences (contentOf false) (Html.build hostilePage) =
      .tag ⟨false, ascii "p", [(ascii "class", ascii "\"><script>")], false⟩ ::
        ((ascii "</p><!-- &lt; 'x'").map Token.char ++ [Token.tag ⟨true, ascii "p", [], false⟩]) := by
  have hnamed : ∀ op ∈ hostilePage, op.Named := by
    have htag : IsTagName (ascii "p") := ⟨⟨0x70, rfl, by decide⟩, by decide⟩
    have hattr : IsAttrName (ascii "class") := by decide
    simp only [hostilePage, List.forall_mem_cons]
    exact ⟨htag, hattr, trivial, htag, fun op hop => absurd hop List.not_mem_nil⟩
  have hfits : PageFits false (pageItems hostilePage) := ⟨rfl, Or.inl rfl, Or.inl rfl, trivial⟩
  rw [(built_html_reads_back markupReferences markupReferences_standard false).1 hostilePage hnamed hfits]
  decide

/-- The tokens as the strings are given, each attribute kept. -/
def givenTokens (items : List HtmlItem) : List Token :=
  items.flatMap fun
    | .start tag attrs => [.tag ⟨false, tag, attrs.map fun a => (a.1, a.2.getD []), false⟩]
    | .text s => s.map Token.char
    | .stop tag => [.tag ⟨true, tag, [], false⟩]

/-- **Strings HTML does not read as they stand**: a CR in a text, a NUL in a value, a name given twice, and any text
within a style. -/
theorem string_read_otherwise :
    tokenize markupReferences (contentOf false) (Html.build [.openTag (ascii "p"), .text [0x0D]]) ≠
      givenTokens (pageItems [.openTag (ascii "p"), .text [0x0D]]) ∧
    tokenize markupReferences (contentOf false) (Html.build [.openTag (ascii "p"), .attr (ascii "id") [0]]) ≠
      givenTokens (pageItems [.openTag (ascii "p"), .attr (ascii "id") [0]]) ∧
    tokenize markupReferences (contentOf false)
        (Html.build [.openTag (ascii "p"), .attr (ascii "id") (ascii "a"), .attr (ascii "id") (ascii "b")]) ≠
      givenTokens (pageItems [.openTag (ascii "p"), .attr (ascii "id") (ascii "a"), .attr (ascii "id") (ascii "b")]) ∧
    tokenize markupReferences (contentOf false) (Html.build [.openTag (ascii "style"), .text (ascii "<")]) ≠
      givenTokens (pageItems [.openTag (ascii "style"), .text (ascii "<")]) := by
  refine ⟨?_, ?_, ?_, ?_⟩
  · decide
  · decide
  · decide
  · decide

end MojoHttp
