import MojoHttp.Router

/-!
# The `Allow` header of a route table (`router.mojo`)

`allow_header` puts the methods registered for a path into one text, a comma and a space between two, and
asks the text itself whether it names a method already.

* **`Lists`** — the text is these methods, in order.
* **`allowed`** — the methods a request on the path may have, each once, `HEAD` where `GET` is one.
* **`TellsTruth`** — the value names the methods answered and `OPTIONS`, each once.
* **`Built.tellsTruth_iff`** — it does exactly where every method can stand in a list and none is `OPTIONS`.
-/

namespace MojoHttp

open BytesConstant

/-! ## A list of methods -/

/-- The loop of `_list_contains`; `turns` bounds it. -/
def listContainsFrom (b want : Bytes) : (turns start : Nat) → Bool
  | 0, _ => false
  | turns + 1, start =>
    if start > b.length then false
    else
      let member := nextListMember b start
      if slice b member.1 member.2.1 == want then true else listContainsFrom b want turns member.2.2

/-- `_list_contains`, as written. -/
def listContains (list item : Bytes) : Bool := listContainsFrom list item (list.length + 1) 0

theorem listContainsFrom_iff {b want : Bytes} {turns start : Nat} (hstart : start ≤ b.length)
    (hturns : b.length < start + turns) :
    listContainsFrom b want turns start = true ↔ want ∈ listMembers (b.drop start) := by
  induction turns generalizing start with
  | zero => omega
  | succ turns ih =>
    obtain ⟨hab, hb, hlt, hle, hmembers⟩ := nextListMember_spec b hstart
    rw [listContainsFrom, if_neg (not_lt.mpr hstart), hmembers, List.mem_cons]
    dsimp only
    cases hsame : slice b (nextListMember b start).1 (nextListMember b start).2.1 == want with
    | true =>
      rw [if_pos rfl]
      exact iff_of_true rfl (Or.inl (beq_iff_eq.mp hsame).symm)
    | false =>
      rw [if_neg Bool.false_ne_true]
      have hne : want ≠ slice b (nextListMember b start).1 (nextListMember b start).2.1 :=
        fun h => beq_eq_false_iff_ne.mp hsame h.symm
      by_cases hend : (nextListMember b start).2.2 = b.length + 1
      · rw [if_pos hend, hend]
        refine iff_of_false ?_ (by simp [hne])
        cases turns with
        | zero => exact Bool.false_ne_true
        | succ turns =>
          rw [listContainsFrom, if_pos (Nat.lt_succ_self _)]
          exact Bool.false_ne_true
      · rw [if_neg hend, ih (by omega) (by omega)]
        exact (or_iff_right hne).symm

theorem listContains_iff {list item : Bytes} : listContains list item = true ↔ item ∈ listMembers list :=
  listContainsFrom_iff (Nat.zero_le _) (by omega)

theorem not_mem_of_mem_splitOn {x piece : Bytes} (h : piece ∈ x.splitOn COMMA) : COMMA ∉ piece := by
  rw [List.splitOn_eq_splitOnP] at h
  induction x generalizing piece with
  | nil => simp_all
  | cons c x ih =>
    rw [List.splitOnP_cons_eq_if_modifyHead] at h
    split at h
    · rcases List.mem_cons.mp h with rfl | h
      · exact List.not_mem_nil
      · exact ih h
    · next hc =>
      obtain ⟨first, rest, hsplit⟩ := List.exists_cons_of_ne_nil (List.splitOnP_ne_nil (· == COMMA) x)
      rw [hsplit, List.modifyHead_cons] at h
      rw [hsplit] at ih
      rcases List.mem_cons.mp h with rfl | h
      · rw [List.mem_cons, not_or]
        exact ⟨fun heq => hc (beq_iff_eq.mpr heq.symm), ih List.mem_cons_self⟩
      · exact ih (List.mem_cons_of_mem _ h)

theorem trimmed_trimmed (l : Bytes) : trimmed (trimmed l) = trimmed l := by
  have hhead : (trimmed l).dropWhile isOws = trimmed l := by
    have hprefix : trimmed l <+: l.dropWhile isOws := List.rdropWhile_prefix _ _
    rw [List.dropWhile_eq_self_iff]
    intro hpos hblank
    obtain ⟨t, ht⟩ := hprefix
    have hne : (l.dropWhile isOws).head? = some ((trimmed l)[0]) := by
      rw [← ht, List.head?_append, List.head?_eq_getElem?, List.getElem?_eq_getElem hpos]
      rfl
    have hnot := List.head?_dropWhile_not isOws l
    rw [hne] at hnot
    exact Bool.false_ne_true (hnot.symm.trans hblank)
  rw [trimmed, hhead]
  exact List.rdropWhile_idempotent _ _

/-- A member of a list has no comma, and no blank at either end. -/
theorem of_mem_listMembers {x m : Bytes} (h : m ∈ listMembers x) : COMMA ∉ m ∧ trimmed m = m := by
  obtain ⟨piece, hpiece, rfl⟩ := List.mem_map.mp h
  refine ⟨fun hcomma => not_mem_of_mem_splitOn hpiece ?_, trimmed_trimmed piece⟩
  exact (List.dropWhile_sublist isOws).subset ((List.rdropWhile_prefix _ _).subset hcomma)

/-- A method that can stand in a list as it is. -/
def Plain (m : Bytes) : Prop := m ≠ [] ∧ COMMA ∉ m ∧ trimmed m = m

instance (m : Bytes) : Decidable (Plain m) := inferInstanceAs (Decidable (_ ∧ _ ∧ _))

/-- The text names these methods: the first, and each other behind a comma and a space. -/
def Lists (allow : Bytes) : List Bytes → Prop
  | [] => allow = []
  | m :: ms => allow ≠ [] ∧ allow.splitOn COMMA = m :: ms.map (whitespace :: ·)

theorem trimmed_space (m : Bytes) : trimmed (whitespace :: m) = trimmed m := by
  rw [trimmed, List.dropWhile_cons_of_pos (by decide)]
  rfl

theorem Lists.members {allow : Bytes} {ms : List Bytes} (h : Lists allow ms) (hne : ms ≠ [])
    (hplain : ∀ m ∈ ms, Plain m) : listMembers allow = ms := by
  obtain ⟨m, ms, rfl⟩ := List.exists_cons_of_ne_nil hne
  rw [List.forall_mem_cons] at hplain
  rw [listMembers, h.2, List.map_cons, hplain.1.2.2, List.map_map]
  congr 1
  refine (List.map_congr_left fun x hx => ?_).trans (List.map_id ms)
  exact (trimmed_space x).trans (hplain.2 x hx).2.2

theorem Lists.contains {allow m : Bytes} {ms : List Bytes} (h : Lists allow ms) (hplain : ∀ x ∈ ms, Plain x)
    (hm : m ≠ []) : listContains allow m = true ↔ m ∈ ms := by
  rw [listContains_iff]
  cases ms with
  | nil =>
    obtain rfl : allow = [] := h
    refine iff_of_false (fun hin => hm ?_) List.not_mem_nil
    exact List.mem_singleton.mp hin
  | cons x ms => rw [h.members (List.cons_ne_nil _ _) hplain]

/-- A member more behind a comma and a space. -/
theorem splitOn_comma_space (allow : Bytes) {m : Bytes} (hm : COMMA ∉ m) :
    (allow ++ ascii ", " ++ m).splitOn COMMA = allow.splitOn COMMA ++ [whitespace :: m] := by
  have hsep : allow ++ ascii ", " ++ m = allow ++ COMMA :: (whitespace :: m) := by
    rw [List.append_assoc]
    rfl
  have hrest : COMMA ∉ whitespace :: m := by
    rw [List.mem_cons, not_or]
    exact ⟨by decide, hm⟩
  rw [hsep, List.splitOn_eq_splitOnP, List.splitOnP_append_cons (p := (· == COMMA)) _ _ (beq_self_eq_true _), ← List.splitOn_eq_splitOnP,
    ← List.splitOn_eq_splitOnP, List.splitOn_eq_singleton hrest]

theorem Lists.push {allow m : Bytes} {ms : List Bytes} (h : Lists allow ms) (hm : COMMA ∉ m) (hne : m ≠ []) :
    Lists ((if 0 < allow.length then allow ++ ascii ", " else allow) ++ m) (ms ++ [m]) := by
  cases ms with
  | nil =>
    obtain rfl : allow = [] := h
    exact ⟨hne, List.splitOn_eq_singleton hm⟩
  | cons x ms =>
    obtain ⟨hallow, hsplit⟩ := h
    rw [if_pos (List.length_pos_iff.mpr hallow)]
    refine ⟨by simp [hallow], ?_⟩
    show _ = x :: (ms ++ [m]).map (whitespace :: ·)
    rw [splitOn_comma_space allow hm, hsplit, List.map_append]
    rfl

/-! ## `allow_header` -/

/-- One turn of the loop of `allow_header`, for a route that matches the path. -/
def allowStep (allow m : Bytes) : Bytes :=
  if listContains allow m then allow
  else
    let allow := (if 0 < allow.length then allow ++ ascii ", " else allow) ++ m
    if m == ascii "GET" && !listContains allow (ascii "HEAD") then allow ++ ascii ", HEAD" else allow

namespace Router

/-- `method_of`. -/
def methodOf (rt : Router) (r : Nat) : Bytes :=
  slice rt.buf (rt.rMethOff.getD r 0) (rt.rMethOff.getD r 0 + rt.rMethLen.getD r 0)

/-- The loop of `allow_header` over the routes still to come. -/
def allowFrom (rt : Router) (segs : List Bytes) : List Nat → (allow : Bytes) → Bytes
  | [], allow => allow
  | r :: rs, allow =>
    if !rt.pathMatches r segs then rt.allowFrom segs rs allow
    else rt.allowFrom segs rs (allowStep allow (rt.methodOf r))

/-- `allow_header`. -/
def allowHeader (rt : Router) (path : Bytes) : Bytes :=
  let allow := rt.allowFrom (segments path) (List.range rt.rHandler.length) []
  if 0 < allow.length then allow ++ ascii ", OPTIONS" else ascii "OPTIONS"

end Router

/-- The methods noted so far and one more, `HEAD` behind a `GET`. -/
def noteMethod (noted : List Bytes) (m : Bytes) : List Bytes :=
  if m ∈ noted then noted
  else if m = ascii "GET" ∧ ascii "HEAD" ∉ noted ++ [m] then noted ++ [m] ++ [ascii "HEAD"] else noted ++ [m]

/-- The methods that requests may have where these are registered: each once, `HEAD` where `GET` is one. -/
def allowed (methods : List Bytes) : List Bytes := methods.foldl noteMethod []

/-- What was noted of the methods `ms`. -/
structure Noted (noted ms : List Bytes) : Prop where
  nodup : noted.Nodup
  mem_iff : ∀ x, x ∈ noted ↔ x ∈ ms ∨ x = ascii "HEAD" ∧ ascii "GET" ∈ ms

theorem Noted.note {noted ms : List Bytes} (h : Noted noted ms) (m : Bytes) :
    Noted (noteMethod noted m) (ms ++ [m]) := by
  unfold noteMethod
  split
  · next hin =>
    refine ⟨h.nodup, fun x => ?_⟩
    rw [h.mem_iff, List.mem_append, List.mem_append, List.mem_singleton, List.mem_singleton]
    -- a `GET` noted before has its `HEAD`
    constructor
    · rintro (hx | ⟨hx, hget⟩)
      · exact Or.inl (Or.inl hx)
      · exact Or.inr ⟨hx, Or.inl hget⟩
    · rintro ((hx | rfl) | ⟨rfl, hget | rfl⟩)
      · exact Or.inl hx
      · exact (h.mem_iff x).mp hin
      · exact Or.inr ⟨rfl, hget⟩
      · rcases (h.mem_iff _).mp hin with hget | ⟨heq, _⟩
        · exact Or.inr ⟨rfl, hget⟩
        · exact absurd heq (by decide)
  · next hout =>
    have hsnoc : (noted ++ [m]).Nodup := List.nodup_append.mpr
      ⟨h.nodup, List.nodup_singleton m, fun a ha b hb heq => hout (List.mem_singleton.mp hb ▸ heq ▸ ha)⟩
    split
    · next hget =>
      obtain ⟨rfl, hhead⟩ := hget
      refine ⟨List.nodup_append.mpr ⟨hsnoc, List.nodup_singleton _,
        fun a ha b hb heq => hhead (List.mem_singleton.mp hb ▸ heq ▸ ha)⟩, fun x => ?_⟩
      rw [List.mem_append, List.mem_append, h.mem_iff, List.mem_append, List.mem_append, List.mem_singleton,
        List.mem_singleton, List.mem_singleton]
      constructor
      · rintro (((hx | ⟨hx, hget⟩) | hx) | hx)
        · exact Or.inl (Or.inl hx)
        · exact Or.inr ⟨hx, Or.inl hget⟩
        · exact Or.inl (Or.inr hx)
        · exact Or.inr ⟨hx, Or.inr rfl⟩
      · rintro ((hx | hx) | ⟨hx, _⟩)
        · exact Or.inl (Or.inl (Or.inl hx))
        · exact Or.inl (Or.inr hx)
        · exact Or.inr hx
    · next hnot =>
      refine ⟨hsnoc, fun x => ?_⟩
      rw [List.mem_append, h.mem_iff, List.mem_append, List.mem_append, List.mem_singleton, List.mem_singleton]
      constructor
      · rintro ((hx | ⟨hx, hget⟩) | hx)
        · exact Or.inl (Or.inl hx)
        · exact Or.inr ⟨hx, Or.inl hget⟩
        · exact Or.inl (Or.inr hx)
      · rintro ((hx | hx) | ⟨rfl, hget | hget⟩)
        · exact Or.inl (Or.inl hx)
        · exact Or.inr hx
        · exact Or.inl (Or.inr ⟨rfl, hget⟩)
        · -- the `GET` just noted found its `HEAD` there
          have hhead : ascii "HEAD" ∈ noted ++ [m] := by
            by_contra hno
            exact hnot ⟨hget.symm, hno⟩
          rw [List.mem_append, h.mem_iff, List.mem_singleton] at hhead
          exact hhead

theorem noted_allowed (methods : List Bytes) : Noted (allowed methods) methods := by
  induction methods using List.reverseRecOn with
  | nil => exact ⟨List.nodup_nil, fun x => by simp [allowed]⟩
  | append_singleton methods m ih =>
    rw [allowed, List.foldl_concat]
    exact ih.note m

theorem plain_head : Plain (ascii "HEAD") := by decide

/-- One turn notes the route's method in the text. -/
theorem Lists.allowStep {allow m : Bytes} {noted : List Bytes} (h : Lists allow noted)
    (hplain : ∀ x ∈ noted, Plain x) (hm : Plain m) : Lists (allowStep allow m) (noteMethod noted m) := by
  unfold MojoHttp.allowStep noteMethod
  by_cases hin : m ∈ noted
  · rw [if_pos ((h.contains hplain hm.1).mpr hin), if_pos hin]
    exact h
  · rw [if_neg (fun hc => hin ((h.contains hplain hm.1).mp hc)), if_neg hin]
    have hpush := h.push hm.2.1 hm.1
    have hall : ∀ x ∈ noted ++ [m], Plain x := by
      intro x hx
      rcases List.mem_append.mp hx with hx | hx
      · exact hplain x hx
      · exact List.mem_singleton.mp hx ▸ hm
    have hcontains := hpush.contains hall plain_head.1
    dsimp only
    generalize hallow : (if 0 < allow.length then allow ++ ascii ", " else allow) ++ m = text at hpush hcontains
    have hne : text ≠ [] := by
      rw [← hallow]
      exact List.append_ne_nil_of_right_ne_nil _ hm.1
    by_cases hget : m = ascii "GET" ∧ ascii "HEAD" ∉ noted ++ [m]
    · obtain ⟨hget, hhead⟩ := hget
      have htest : (m == ascii "GET" && !listContains text (ascii "HEAD")) = true := by
        rw [Bool.and_eq_true, beq_iff_eq, Bool.not_eq_true', Bool.eq_false_iff]
        exact ⟨hget, fun hc => hhead (hcontains.mp hc)⟩
      rw [if_pos htest, if_pos ⟨hget, hhead⟩]
      have hhead := hpush.push plain_head.2.1 plain_head.1
      rw [if_pos (List.length_pos_iff.mpr hne)] at hhead
      have hboth : text ++ ascii ", HEAD" = text ++ ascii ", " ++ ascii "HEAD" := by
        rw [List.append_assoc]
        rfl
      rw [hboth]
      exact hhead
    · have htest : (m == ascii "GET" && !listContains text (ascii "HEAD")) = false := by
        rw [Bool.eq_false_iff]
        intro hc
        rw [Bool.and_eq_true, beq_iff_eq, Bool.not_eq_true', Bool.eq_false_iff] at hc
        exact hget ⟨hc.1, fun hin => hc.2 (hcontains.mpr hin)⟩
      rw [htest, if_neg Bool.false_ne_true, if_neg hget]
      exact hpush

theorem Noted.plain {noted ms : List Bytes} (h : Noted noted ms) (hplain : ∀ m ∈ ms, Plain m) :
    ∀ x ∈ noted, Plain x := by
  intro x hx
  rcases (h.mem_iff x).mp hx with hx | ⟨rfl, _⟩
  · exact hplain x hx
  · exact plain_head

/-- The turns of the loop, over the methods of the routes that match. -/
theorem lists_allowed {methods : List Bytes} (hplain : ∀ m ∈ methods, Plain m) :
    Lists (methods.foldl MojoHttp.allowStep []) (allowed methods) := by
  induction methods using List.reverseRecOn with
  | nil => exact rfl
  | append_singleton methods m ih =>
    have hbefore : ∀ x ∈ methods, Plain x := fun x hx => hplain x (List.mem_append_left _ hx)
    rw [allowed, List.foldl_concat, List.foldl_concat]
    exact (ih hbefore).allowStep ((noted_allowed methods).plain hbefore)
      (hplain m (List.mem_append_right _ (List.mem_singleton_self m)))

/-! ## What the value says -/

/-- The members of a list value; an empty one is none. -/
def listed (value : Bytes) : List Bytes := (listMembers value).filter fun m => !m.isEmpty

/-- The value names the methods answered and `OPTIONS`, each once, and no other. -/
def TellsTruth (value : Bytes) (answered : Bytes → Prop) : Prop :=
  (listed value).Nodup ∧ ∀ m, m ∈ listed value ↔ answered m ∨ m = ascii "OPTIONS"

theorem plain_of_mem_listed {value m : Bytes} (h : m ∈ listed value) : Plain m := by
  obtain ⟨hin, hne⟩ := List.mem_filter.mp h
  obtain ⟨hcomma, htrimmed⟩ := of_mem_listMembers hin
  refine ⟨fun hnil => ?_, hcomma, htrimmed⟩
  rw [hnil] at hne
  exact Bool.false_ne_true hne

theorem listed_of_members {value : Bytes} {ms : List Bytes} (h : listMembers value = ms) (hne : ∀ m ∈ ms, m ≠ []) :
    listed value = ms := by
  rw [listed, h, List.filter_eq_self]
  intro m hm
  simpa using hne m hm

theorem plain_options : Plain (ascii "OPTIONS") := by decide

/-- `OPTIONS` behind the methods. -/
def withOptions (allow : Bytes) : Bytes := if 0 < allow.length then allow ++ ascii ", OPTIONS" else ascii "OPTIONS"

theorem Lists.withOptions {allow : Bytes} {ms : List Bytes} (h : Lists allow ms) :
    Lists (withOptions allow) (ms ++ [ascii "OPTIONS"]) := by
  have hpush := h.push plain_options.2.1 plain_options.1
  have hsame : MojoHttp.withOptions allow =
      (if 0 < allow.length then allow ++ ascii ", " else allow) ++ ascii "OPTIONS" := by
    unfold MojoHttp.withOptions
    split
    · rw [List.append_assoc]
      rfl
    · next hempty =>
      obtain rfl : allow = [] := List.eq_nil_of_length_eq_zero (by omega)
      rfl
  rw [hsame]
  exact hpush

theorem listed_withOptions {allow : Bytes} {ms : List Bytes} (h : Lists allow ms) (hplain : ∀ m ∈ ms, Plain m) :
    listed (withOptions allow) = ms ++ [ascii "OPTIONS"] := by
  have hall : ∀ m ∈ ms ++ [ascii "OPTIONS"], Plain m := by
    intro m hm
    rcases List.mem_append.mp hm with hm | hm
    · exact hplain m hm
    · exact List.mem_singleton.mp hm ▸ plain_options
  have hmembers := h.withOptions.members (List.append_ne_nil_of_right_ne_nil _ (List.cons_ne_nil _ _)) hall
  exact listed_of_members hmembers fun m hm => (hall m hm).1

theorem mem_allowed {methods : List Bytes} {m : Bytes} :
    m ∈ allowed methods ↔ m ∈ methods ∨ m = ascii "HEAD" ∧ ascii "GET" ∈ methods :=
  (noted_allowed methods).mem_iff m

/-- A value made of the methods tells the truth where each can stand in a list and none is `OPTIONS`. -/
theorem tellsTruth_iff_plain (methods : List Bytes) :
    TellsTruth (withOptions (methods.foldl allowStep [])) (· ∈ allowed methods) ↔
      ∀ m ∈ methods, Plain m ∧ m ≠ ascii "OPTIONS" := by
  constructor
  · rintro ⟨hnodup, hmem⟩
    have hplain : ∀ m ∈ methods, Plain m := fun m hm =>
      plain_of_mem_listed ((hmem m).mpr (Or.inl (mem_allowed.mpr (Or.inl hm))))
    rw [listed_withOptions (lists_allowed hplain) ((noted_allowed methods).plain hplain), List.nodup_append] at hnodup
    intro m hm
    refine ⟨hplain m hm, ?_⟩
    exact hnodup.2.2 m (mem_allowed.mpr (Or.inl hm)) _ (List.mem_singleton_self _)
  · intro h
    have hplain : ∀ m ∈ methods, Plain m := fun m hm => (h m hm).1
    have hnot : ∀ m ∈ allowed methods, m ≠ ascii "OPTIONS" := by
      intro m hm
      rcases mem_allowed.mp hm with hm | ⟨rfl, _⟩
      · exact (h m hm).2
      · decide
    rw [TellsTruth, listed_withOptions (lists_allowed hplain) ((noted_allowed methods).plain hplain)]
    refine ⟨List.nodup_append.mpr ⟨(noted_allowed methods).nodup, List.nodup_singleton _, ?_⟩, fun m => ?_⟩
    · intro a ha b hb
      rw [List.mem_singleton.mp hb]
      exact hnot a ha
    · rw [List.mem_append, List.mem_singleton]

namespace Router

/-- The methods registered for the path. -/
def methodsAt (rt : Router) (path : Bytes) : List Bytes :=
  (rt.routes.filter fun r => takes r.pattern (segments path)).map Route.method

theorem allowFrom_eq {rt : Router} (h : rt.Built) (segs : List Bytes) (rs : List Nat)
    (hrs : ∀ r ∈ rs, r < rt.rHandler.length) (allow : Bytes) :
    rt.allowFrom segs rs allow =
      (((rs.map rt.route).filter fun r => takes r.pattern segs).map Route.method).foldl allowStep allow := by
  induction rs generalizing allow with
  | nil => rfl
  | cons r rs ih =>
    have hrest := fun x hx => hrs x (List.mem_cons_of_mem r hx)
    rw [allowFrom, pathMatches_eq h (hrs r List.mem_cons_self), List.map_cons, List.filter_cons]
    cases takes (rt.route r).pattern segs with
    | false => exact ih hrest allow
    | true => exact ih hrest _

theorem Built.allowHeader_eq {rt : Router} (h : rt.Built) (path : Bytes) :
    rt.allowHeader path = withOptions ((rt.methodsAt path).foldl allowStep []) := by
  rw [allowHeader, allowFrom_eq h _ _ (fun r hr => List.mem_range.mp hr)]
  rfl

/-- A request of this method on the path finds a route. -/
def Answers (rt : Router) (method path : Bytes) : Prop := ∃ h params, rt.matchRoute method path = .found h params

theorem isSome_firstTaking {α : Type*} {method : α → Bytes} {pattern : α → List PatternSegment} {probe : Bytes}
    {segs : List Bytes} {rs : List α} :
    (firstTaking method pattern probe segs rs).isSome = true ↔
      probe ∈ allowed ((rs.filter fun r => takes (pattern r) segs).map method) := by
  have hfind : ∀ want, (rs.find? fun r => takes (pattern r) segs && method r == want).isSome = true ↔
      want ∈ (rs.filter fun r => takes (pattern r) segs).map method := by
    intro want
    rw [List.find?_isSome, List.mem_map]
    constructor
    · rintro ⟨r, hr, htakes⟩
      rw [Bool.and_eq_true, beq_iff_eq] at htakes
      exact ⟨r, List.mem_filter.mpr ⟨hr, htakes.1⟩, htakes.2⟩
    · rintro ⟨r, hr, rfl⟩
      obtain ⟨hin, htakes⟩ := List.mem_filter.mp hr
      exact ⟨r, hin, by rw [htakes, beq_self_eq_true]; rfl⟩
  rw [firstTaking, Option.isSome_or, Bool.or_eq_true, hfind, mem_allowed]
  refine or_congr_right ?_
  by_cases hhead : probe = ascii "HEAD"
  · rw [if_pos (beq_iff_eq.mpr hhead), hfind]
    exact (and_iff_right hhead).symm
  · rw [if_neg (fun h => hhead (beq_iff_eq.mp h))]
    exact iff_of_false Bool.false_ne_true fun h => hhead h.1

theorem Built.answers_iff {rt : Router} (h : rt.Built) (method path : Bytes) :
    rt.Answers method path ↔ method ∈ allowed (rt.methodsAt path) := by
  rw [methodsAt, ← isSome_firstTaking, Answers, h.match_eq]
  cases firstTaking Route.method Route.pattern method (segments path) rt.routes with
  | some r => exact iff_of_true ⟨_, _, rfl⟩ rfl
  | none =>
    refine iff_of_false ?_ Bool.false_ne_true
    rintro ⟨id, params, heq⟩
    dsimp only at heq
    split at heq
    · cases heq
    · cases heq

/-- **The table's `Allow`** tells the truth exactly where every method registered for the path can stand in a list and
none is `OPTIONS`. -/
theorem Built.tellsTruth_iff {rt : Router} (h : rt.Built) (path : Bytes) :
    TellsTruth (rt.allowHeader path) (fun m => rt.Answers m path) ↔
      ∀ m ∈ rt.methodsAt path, Plain m ∧ m ≠ ascii "OPTIONS" := by
  have hanswers : (fun m => rt.Answers m path) = (· ∈ allowed (rt.methodsAt path)) :=
    funext fun m => propext (h.answers_iff m path)
  rw [hanswers, h.allowHeader_eq]
  exact tellsTruth_iff_plain _

end Router

end MojoHttp
