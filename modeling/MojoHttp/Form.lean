import MojoHttp.Router.Reverse

/-!
# Query strings and forms (`Query` of `router.mojo`, `form.mojo`)

`Query` writes pairs, and two readers take them apart: `parse_form`, which keeps them all, and the
query of a URI, which keeps the last value of each name.

* **`Query.pairs_run`** — the text of a query is its pairs, each `name=value`, joined by `&`.
* **`readItem_item`** — an item is read back as its pair.
* **`query_round_trip`** — both readers invert the writer.
-/

namespace MojoHttp

open BytesConstant

/-! ## The writer -/

structure Query where
  pairs : Bytes
  deriving Repr, DecidableEq

namespace Query

def empty : Query := ⟨[]⟩

/-- `add_empty`. -/
def addEmpty (q : Query) (name value : Bytes) : Query :=
  let separated := if 0 < q.pairs.length then q.pairs ++ [URI.ITEM] else q.pairs
  ⟨separated ++ percentEncode name ++ [URI.ITEM_ASSIGN] ++ percentEncode value⟩

/-- `add`. -/
def add (q : Query) (name value : Bytes) : Query :=
  if 0 < value.length then q.addEmpty name value else q

def encoded (q : Query) : Bytes := q.pairs

/-- `on`. -/
def on (q : Query) (path : Bytes) : Bytes :=
  if q.pairs.length = 0 then path else path ++ [URI.QUERY] ++ q.pairs

end Query

/-- One call of a writer. -/
inductive QueryCall where
  | add (name value : Bytes)
  | addEmpty (name value : Bytes)
  deriving Repr, DecidableEq

namespace QueryCall

def name : QueryCall → Bytes
  | .add name _ => name
  | .addEmpty name _ => name

/-- The pair a call puts in: `add` leaves an empty value out. -/
def kept : QueryCall → Option (Bytes × Bytes)
  | .add name value => if value = [] then none else some (name, value)
  | .addEmpty name value => some (name, value)

def apply (q : Query) : QueryCall → Query
  | .add name value => q.add name value
  | .addEmpty name value => q.addEmpty name value

end QueryCall

/-- The query a sequence of calls leaves, from the empty one. -/
def Query.run (calls : List QueryCall) : Query := calls.foldl QueryCall.apply Query.empty

/-! ## The form reader -/

structure Form where
  keys : List Bytes
  values : List Bytes
  deriving Repr, DecidableEq

namespace Form

def empty : Form := ⟨[], []⟩

/-- `_add`. -/
def add (f : Form) (key value : Bytes) : Form := ⟨f.keys ++ [key], f.values ++ [value]⟩

/-- The fields, in body order. -/
def fields (f : Form) : List (Bytes × Bytes) := f.keys.zip f.values

end Form

/-- One turn of the loop of `parse_form`. -/
def addField (out : Form) (item : Bytes) : Form :=
  let kv := URI.splitOnce URI.ITEM_ASSIGN item
  let key := URI.unquote true [] kv.1
  if key.length = 0 then out
  else
    match kv.2 with
    | some value => out.add key (URI.unquote true [] value)
    | none => out.add key []

/-- `parse_form`. -/
def parseForm (body : Bytes) : Form :=
  if body.length = 0 then Form.empty else (body.splitOn URI.ITEM).foldl addField Form.empty

/-! ## What a query's text is made of -/

/-- Unreserved bytes, escapes and the two separators. -/
inductive EncodedText : Bytes → Prop where
  | nil : EncodedText []
  | unreserved {b : UInt8} {t : Bytes} (hb : isUnreserved b = true) (ht : EncodedText t) :
      EncodedText (b :: t)
  | escape {b : UInt8} {t : Bytes} (ht : EncodedText t) : EncodedText (percentByte b ++ t)
  | separator {b : UInt8} {t : Bytes} (hb : b = URI.ITEM ∨ b = URI.ITEM_ASSIGN) (ht : EncodedText t) :
      EncodedText (b :: t)

theorem EncodedText.append {s t : Bytes} (hs : EncodedText s) (ht : EncodedText t) :
    EncodedText (s ++ t) := by
  induction hs with
  | nil => exact ht
  | unreserved hb _ ih => exact EncodedText.unreserved hb ih
  | escape _ ih =>
    rw [List.append_assoc]
    exact EncodedText.escape ih
  | separator hb _ ih => exact EncodedText.separator hb ih

theorem encodedText_percentEncode (s : Bytes) : EncodedText (percentEncode s) := by
  induction s with
  | nil => exact EncodedText.nil
  | cons b s ih =>
    rw [percentEncode, List.flatMap_cons, ← percentEncode]
    split
    · next hb => exact EncodedText.unreserved hb ih
    · exact EncodedText.escape ih

/-- The text of one pair. -/
def queryItem (pair : Bytes × Bytes) : Bytes :=
  percentEncode pair.1 ++ URI.ITEM_ASSIGN :: percentEncode pair.2

theorem separators_not_mem_percentEncode (s : Bytes) :
    URI.ITEM ∉ percentEncode s ∧ URI.ITEM_ASSIGN ∉ percentEncode s := by
  have hbyte : ∀ b : UInt8, URI.ITEM ∉ (if isUnreserved b then [b] else percentByte b) ∧
      URI.ITEM_ASSIGN ∉ (if isUnreserved b then [b] else percentByte b) :=
    forall_byte (P := fun b => URI.ITEM ∉ (if isUnreserved b then [b] else percentByte b) ∧
      URI.ITEM_ASSIGN ∉ (if isUnreserved b then [b] else percentByte b)) (by decide)
  constructor
  · intro hmem
    obtain ⟨b, _, hb⟩ := List.mem_flatMap.mp hmem
    exact (hbyte b).1 hb
  · intro hmem
    obtain ⟨b, _, hb⟩ := List.mem_flatMap.mp hmem
    exact (hbyte b).2 hb

theorem item_not_mem_queryItem (pair : Bytes × Bytes) : URI.ITEM ∉ queryItem pair := by
  unfold queryItem
  rw [List.mem_append, List.mem_cons, not_or, not_or]
  exact ⟨(separators_not_mem_percentEncode _).1, by decide, (separators_not_mem_percentEncode _).1⟩

theorem queryItem_ne_nil (pair : Bytes × Bytes) : queryItem pair ≠ [] := by
  unfold queryItem
  exact List.append_ne_nil_of_right_ne_nil _ (List.cons_ne_nil _ _)

theorem intercalate_snoc {α : Type*} (sep : List α) (ls : List (List α)) (l : List α) (h : ls ≠ []) :
    List.intercalate sep (ls ++ [l]) = List.intercalate sep ls ++ sep ++ l := by
  induction ls with
  | nil => exact absurd rfl h
  | cons first ls ih =>
    cases ls with
    | nil => simp [List.intercalate, List.intersperse]
    | cons second ls =>
      have hrest := ih (List.cons_ne_nil _ _)
      simp only [List.intercalate, List.cons_append, List.intersperse_cons₂, List.flatten_cons] at hrest ⊢
      rw [hrest]
      simp only [List.append_assoc]

theorem intercalate_queryItem_eq_nil (pairs : List (Bytes × Bytes)) :
    List.intercalate [URI.ITEM] (pairs.map queryItem) = [] ↔ pairs = [] := by
  cases pairs with
  | nil => exact iff_of_true rfl rfl
  | cons pair pairs =>
    have hne := queryItem_ne_nil pair
    cases pairs with
    | nil => simp [List.intercalate, hne]
    | cons pair' pairs => simp [List.intercalate, hne]

theorem length_intercalate_queryItem (pairs : List (Bytes × Bytes)) :
    (List.intercalate [URI.ITEM] (pairs.map queryItem)).length = 0 ↔ pairs = [] := by
  rw [List.length_eq_zero_iff]
  exact intercalate_queryItem_eq_nil pairs

/-- **The text of a query**: the pairs kept, joined by `&`. -/
theorem Query.pairs_run (calls : List QueryCall) :
    (Query.run calls).encoded =
      List.intercalate [URI.ITEM] ((calls.filterMap QueryCall.kept).map queryItem) := by
  have hadd : ∀ (pairs : List (Bytes × Bytes)) (name value : Bytes),
      (Query.addEmpty ⟨List.intercalate [URI.ITEM] (pairs.map queryItem)⟩ name value).pairs =
        List.intercalate [URI.ITEM] ((pairs ++ [(name, value)]).map queryItem) := by
    intro pairs name value
    unfold Query.addEmpty
    dsimp only
    have hlen := length_intercalate_queryItem pairs
    rw [List.map_append, List.map_singleton]
    by_cases hnil : pairs = []
    · rw [if_neg (by rw [hlen.mpr hnil]; decide), hnil]
      simp [List.intercalate, queryItem]
    · rw [if_pos (Nat.pos_of_ne_zero (mt hlen.mp hnil)), intercalate_snoc _ _ _ (by simpa using hnil)]
      simp [queryItem]
  unfold Query.encoded
  induction calls using List.reverseRecOn with
  | nil => rfl
  | append_singleton calls c ih =>
    have hrun : Query.run (calls ++ [c]) = QueryCall.apply (Query.run calls) c := by
      rw [Query.run, List.foldl_append]
      rfl
    have hstate : Query.run calls =
        ⟨List.intercalate [URI.ITEM] ((calls.filterMap QueryCall.kept).map queryItem)⟩ := by
      rw [← ih]
    rw [hrun, hstate, List.filterMap_append]
    cases c with
    | addEmpty name value => exact hadd _ name value
    | add name value =>
      show (Query.add _ name value).pairs = _
      unfold Query.add
      by_cases hvalue : value = []
      · rw [if_neg (by rw [hvalue]; decide)]
        simp [QueryCall.kept, hvalue]
      · rw [if_pos (List.length_pos_iff.mpr hvalue), hadd]
        simp [QueryCall.kept, hvalue]

/-! ## The readers -/

theorem flatMap_readBack_nil (s : Bytes) : s.flatMap (readBack []) = s := by
  induction s with
  | nil => rfl
  | cons b s ih =>
    rw [List.flatMap_cons, ih]
    rfl

theorem unquote_query (s : Bytes) : URI.unquote true [] (percentEncode s) = s := by
  have hnone : ∀ b, isUnreserved b = true → URI.isDisallowed b [] = false := fun _ _ => rfl
  have hread := unquote_percentEncode true hnone s []
  rw [List.append_nil, flatMap_readBack_nil, URI.unquote, List.append_nil] at hread
  exact hread

/-- **An item is read back as its pair.** -/
theorem splitOnce_queryItem (pair : Bytes × Bytes) :
    URI.splitOnce URI.ITEM_ASSIGN (queryItem pair) = (percentEncode pair.1, some (percentEncode pair.2)) := by
  have hname : ∀ b ∈ percentEncode pair.1, (b != URI.ITEM_ASSIGN) = true := by
    intro b hb
    rw [bne_iff_ne]
    rintro rfl
    exact (separators_not_mem_percentEncode pair.1).2 hb
  have hstop : ¬ ((URI.ITEM_ASSIGN != URI.ITEM_ASSIGN) = true) := by decide
  unfold URI.splitOnce queryItem
  rw [List.takeWhile_append_of_pos hname, List.dropWhile_append_of_pos hname, List.takeWhile_cons,
    if_neg hstop, List.dropWhile_cons, if_neg hstop, List.append_nil]

theorem addField_queryItem (out : Form) {pair : Bytes × Bytes} (h : pair.1 ≠ []) :
    addField out (queryItem pair) = out.add pair.1 pair.2 := by
  unfold addField
  rw [splitOnce_queryItem]
  dsimp only
  rw [unquote_query, unquote_query, if_neg (by simpa using h)]

theorem addQuery_queryItem (queries : InsertionMap Bytes Bytes) {pair : Bytes × Bytes} (h : pair.1 ≠ []) :
    URI.addQuery queries (queryItem pair) = (queries.set pair.1 []).set pair.1 pair.2 := by
  unfold URI.addQuery
  rw [splitOnce_queryItem]
  dsimp only
  rw [unquote_query, unquote_query, if_neg (by simpa using h)]

/-- The items of a text of pairs are the pairs'. -/
theorem splitOn_pairs {pairs : List (Bytes × Bytes)} (h : pairs ≠ []) :
    (List.intercalate [URI.ITEM] (pairs.map queryItem)).splitOn URI.ITEM = pairs.map queryItem := by
  apply List.splitOn_intercalate
  · intro item hitem
    obtain ⟨pair, _, rfl⟩ := List.mem_map.mp hitem
    exact item_not_mem_queryItem pair
  · simpa using h

theorem foldl_addField (pairs : List (Bytes × Bytes)) (hnames : ∀ pair ∈ pairs, pair.1 ≠ []) (out : Form) :
    (pairs.map queryItem).foldl addField out =
      ⟨out.keys ++ pairs.map Prod.fst, out.values ++ pairs.map Prod.snd⟩ := by
  induction pairs generalizing out with
  | nil => simp
  | cons pair pairs ih =>
    obtain ⟨hname, hrest⟩ := List.forall_mem_cons.mp hnames
    rw [List.map_cons, List.foldl_cons, addField_queryItem out hname, ih hrest]
    simp [Form.add]

theorem parseForm_pairs {pairs : List (Bytes × Bytes)} (hnames : ∀ pair ∈ pairs, pair.1 ≠ []) :
    (parseForm (List.intercalate [URI.ITEM] (pairs.map queryItem))).fields = pairs := by
  unfold parseForm
  have hlen := length_intercalate_queryItem pairs
  by_cases hnil : pairs = []
  · rw [if_pos (hlen.mpr hnil), hnil]
    rfl
  · rw [if_neg (mt hlen.mp hnil), splitOn_pairs hnil, foldl_addField pairs hnames]
    simp [Form.empty, Form.fields, List.zip_map']

/-- The last value of a name. -/
def lastValue (pairs : List (Bytes × Bytes)) (name : Bytes) : Option Bytes :=
  (pairs.reverse.find? fun pair => pair.1 == name).map Prod.snd

theorem get?_foldl_addQuery (pairs : List (Bytes × Bytes)) (hnames : ∀ pair ∈ pairs, pair.1 ≠ [])
    (name : Bytes) :
    ((pairs.map queryItem).foldl URI.addQuery InsertionMap.empty).get? name = lastValue pairs name := by
  induction pairs using List.reverseRecOn with
  | nil => rfl
  | append_singleton pairs pair ih =>
    have hpair := hnames pair (by simp)
    have hrest := ih fun p hp => hnames p (List.mem_append_left _ hp)
    rw [List.map_append, List.foldl_append, List.map_singleton, List.foldl_cons, List.foldl_nil,
      addQuery_queryItem _ hpair, lastValue, List.reverse_append, List.reverse_singleton,
      List.singleton_append, List.find?_cons]
    by_cases heq : pair.1 = name
    · rw [beq_iff_eq.mpr heq, ← heq, InsertionMap.get?_set_self]
      rfl
    · rw [beq_eq_false_iff_ne.mpr heq, InsertionMap.get?_set_of_ne _ _ (Ne.symm heq),
        InsertionMap.get?_set_of_ne _ _ (Ne.symm heq), hrest]
      rfl

theorem parseQueries_pairs {pairs : List (Bytes × Bytes)} (hnames : ∀ pair ∈ pairs, pair.1 ≠ [])
    (name : Bytes) :
    (URI.parseQueries (List.intercalate [URI.ITEM] (pairs.map queryItem))).get? name =
      lastValue pairs name := by
  unfold URI.parseQueries
  have hempty := intercalate_queryItem_eq_nil pairs
  by_cases hnil : pairs = []
  · rw [if_pos (List.isEmpty_iff.mpr (hempty.mpr hnil)), hnil]
    rfl
  · rw [if_neg (mt (fun h => hempty.mp (List.isEmpty_iff.mp h)) hnil), splitOn_pairs hnil, get?_foldl_addQuery pairs hnames]

theorem encodedText_pairs (pairs : List (Bytes × Bytes)) :
    EncodedText (List.intercalate [URI.ITEM] (pairs.map queryItem)) := by
  have hitem : ∀ pair, EncodedText (queryItem pair) := fun pair =>
    (encodedText_percentEncode _).append
      (EncodedText.separator (Or.inr rfl) (encodedText_percentEncode _))
  induction pairs using List.reverseRecOn with
  | nil => exact EncodedText.nil
  | append_singleton pairs pair ih =>
    rw [List.map_append, List.map_singleton]
    by_cases hnil : pairs = []
    · rw [hnil]
      simpa [List.intercalate] using hitem pair
    · rw [intercalate_snoc _ _ _ (by simpa using hnil), List.append_assoc]
      exact ih.append (EncodedText.separator (Or.inl rfl) (hitem pair))

/-- **Query strings round trip.** Whatever bytes names and values hold, as long as no name is empty,
`parse_form` reads the pairs a query keeps, in their order, and a request target with the query behind
its path has the last value of each name for its queries; the text of the query is unreserved bytes,
escapes, `&` and `=`. `add_empty` keeps every pair; `add` leaves one with an empty value out. -/
theorem query_round_trip (pairs : List (Bytes × Bytes)) (hnames : ∀ pair ∈ pairs, pair.1 ≠ []) :
    (pairs.map fun pair => QueryCall.addEmpty pair.1 pair.2).filterMap QueryCall.kept = pairs ∧
      ∀ calls : List QueryCall, calls.filterMap QueryCall.kept = pairs →
        (parseForm (Query.run calls).encoded).fields = pairs ∧
        (∀ t, URI.QUERY ∉ t → ∃ uri,
          URI.parse (SLASH :: t ++ URI.QUERY :: (Query.run calls).encoded) = .ok uri ∧
            uri.queryString = (Query.run calls).encoded ∧
            ∀ name, uri.queries.get? name = lastValue pairs name) ∧
        EncodedText (Query.run calls).encoded := by
  have hkept : (pairs.map fun pair => QueryCall.addEmpty pair.1 pair.2).filterMap QueryCall.kept = pairs := by
    rw [List.filterMap_map]
    exact List.filterMap_some
  refine ⟨hkept, ?_⟩
  intro calls hcalls
  have htext := Query.pairs_run calls
  rw [hcalls] at htext
  rw [htext]
  refine ⟨parseForm_pairs hnames, ?_, encodedText_pairs pairs⟩
  intro t ht
  -- the target's first `?` is the one in front of the query
  have hpath : ∀ b ∈ SLASH :: t, (b != URI.QUERY) = true := by
    intro b hb
    rw [bne_iff_ne]
    rintro rfl
    rcases List.mem_cons.mp hb with hslash | hmem
    · exact absurd hslash (by decide)
    · exact ht hmem
  set text := List.intercalate [URI.ITEM] (pairs.map queryItem) with hdef
  have hquery : ((SLASH :: (t ++ URI.QUERY :: text)).dropWhile (· != URI.QUERY)).drop 1 = text := by
    rw [← List.cons_append, List.dropWhile_append_of_pos hpath, List.dropWhile_cons, if_neg (by decide),
      List.drop_one, List.tail_cons]
  refine ⟨URI.ofOrigin (SLASH :: (t ++ URI.QUERY :: text)), URI.parse_origin _, hquery, ?_⟩
  intro name
  show (URI.parseQueries (((SLASH :: (t ++ URI.QUERY :: text)).dropWhile (· != URI.QUERY)).drop 1)).get?
    name = _
  rw [hquery]
  exact parseQueries_pairs hnames name

/-- A name twice, a value with every separator, and an empty one. -/
theorem query_round_trip_tags :
    (parseForm (Query.run [.add (ascii "tag") (ascii "a&b=c"), .add (ascii "page") [],
      .addEmpty (ascii "tag") []]).encoded).fields =
        [(ascii "tag", ascii "a&b=c"), (ascii "tag", [])] :=
  ((query_round_trip [(ascii "tag", ascii "a&b=c"), (ascii "tag", [])] (by decide)).2
    [.add (ascii "tag") (ascii "a&b=c"), .add (ascii "page") [], .addEmpty (ascii "tag") []]
    (by decide)).1

end MojoHttp
