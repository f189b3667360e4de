import MojoHttp.Lib.Conninfo
import MojoHttp.Postgres.Url

/-!
# What the merged defaults are read as (`m0-postgres`, `url.mojo`)

The string `with_defaults` makes, read by the grammar of connection strings: which settings of the caller stand, and
which defaults are given.

* **`Mergeable`** — the strings that the defaults can be written behind.
* **`kv_merged_iff`** — pairs between blanks: an unfinished value takes the first default in.
* **`uri_merged_iff`** — URIs: the defaults are parameters where the query can go on, and nothing otherwise.
* **`defaults_kept_iff`** — the caller's settings stand exactly where the string is mergeable.
-/

namespace MojoHttp.Postgres

open Conninfo (Setting effective Keeps Agrees Covers)

/-- The defaults, `options` the last of them. -/
def defaults (options : Bytes) : List Setting := plainDefaults ++ [(ascii "options", options)]

/-- The defaults of `with_defaults`. -/
def packageDefaults : List Setting := defaults statementTimeout

/-- A default as it is written. -/
def spelled (uri : Bool) (d : Setting) : Setting :=
  if d.1 = ascii "options" then (d.1, optionsValue d.2 uri) else d

/-- The defaults `merge` adds to the string. -/
def unset (options url : Bytes) : List Setting := missing (defaults options) url

/-- A string of `key = value` pairs that ends within a value: the keyword of that value. -/
def unfinished (url : Bytes) : Option Bytes :=
  if isUri url then none
  else
    match Conninfo.Kv.run Conninfo.Kv.start url with
    | some (_, .beforeValue key) => some key
    | some (_, .bareEscape key _) => some key
    | _ => none

/-- A URI that another parameter can be written behind: in its query unless a value there ends in `?`, and where it
has no query unless there is a `?` in it or an `&` at its end. -/
def takesMore (url : Bytes) : Bool :=
  match (Conninfo.Uri.behindScheme url).bind Conninfo.Uri.endState with
  | some (_, .key _) => true
  | some (_, .value _ _) => url.getLast? != some QUESTION
  | _ => !url.contains QUESTION && url.getLast? != some AMP

/-- The defaults that end up as settings of their own: behind an unfinished value the first of them goes into it. -/
def added (options url : Bytes) : List Setting :=
  if (unfinished url).isSome then (unset options url).tail else unset options url

/-- What has to hold of a string for the defaults in `required` to be merged into its settings. -/
structure Mergeable (options url : Bytes) (required settings : List Setting) : Prop where
  agrees : Agrees settings (added options url)
  covers : Covers settings (added options url) required
  takes : isUri url = true → unset options url ≠ [] → takesMore url = true
  reset : ∀ key, unfinished url = some key → unset options url ≠ [] → ∃ d ∈ added options url, d.1 = key

/-! ## The defaults -/

theorem defaults_spelled (options : Bytes) (uri : Bool) :
    (defaults options).map (spelled uri) = plainDefaults ++ [(ascii "options", optionsValue options uri)] := by
  have hplain : plainDefaults.map (spelled uri) = plainDefaults := by
    cases uri <;> decide
  rw [defaults, List.map_append, hplain]
  rfl

theorem spelled_fst (uri : Bool) (d : Setting) : (spelled uri d).1 = d.1 := by
  unfold spelled
  split <;> rfl

theorem withDefaults_eq (url : Bytes) :
    withDefaults url = merge ((defaults statementTimeout).map (spelled (isUri url))) url := by
  rw [defaults_spelled]
  rfl

/-- The strings `options` is given. -/
inductive IsOptions : Bytes → Prop
  | statement : IsOptions statementTimeout
  | readOnly : IsOptions (statementTimeout ++ readOnlyExtra)

theorem merge_eq (options url : Bytes) :
    merge ((defaults options).map (spelled (isUri url))) url =
      (unset options url).foldl
        (fun out d => out ++ (sep out (isUri url) ++ (d.1 ++ EQUALS :: (spelled (isUri url) d).2))) url := by
  rw [merge, foldl_addDefault, List.filter_map, List.foldl_map]
  simp only [Function.comp_def, spelled_fst]
  rfl

theorem nodup_defaults (options : Bytes) : ((defaults options).map Prod.fst).Nodup := by
  rw [defaults, List.map_append]
  exact (by decide : (plainDefaults.map Prod.fst ++ [ascii "options"]).Nodup)

theorem unset_sublist (options url : Bytes) : (unset options url).Sublist (defaults options) := List.filter_sublist

theorem one_default {options : Bytes} {d e : Setting} (hd : d ∈ defaults options) (he : e ∈ defaults options)
    (h : e.1 = d.1) : e = d := by
  have heff := Conninfo.effective_of_mem (nodup_defaults options) hd
  rw [← h, Conninfo.effective_of_mem (nodup_defaults options) he] at heff
  exact Prod.ext h (Option.some.inj heff)

/-! ## The two spellings -/

theorem isPrefixOf_append_of_notMem {p a w : Bytes} {c : UInt8} (hc : c ∉ p) (h : p.isPrefixOf (a ++ c :: w) = true) :
    p.isPrefixOf a = true := by
  rw [List.isPrefixOf_iff_prefix] at h ⊢
  have hfront : a ++ [c] <+: a ++ c :: w := ⟨w, by simp⟩
  rcases List.prefix_or_prefix_of_prefix h hfront with hp | hp
  · rcases List.prefix_concat_iff.mp hp with heq | hp
    · exact absurd (heq ▸ List.mem_append_right a (List.mem_singleton_self c)) hc
    · exact hp
  · exact absurd (hp.subset (List.mem_append_right a (List.mem_singleton_self c))) hc

theorem longScheme_eq : Conninfo.Uri.longScheme = ascii "postgresql://" := by decide

theorem shortScheme_eq : Conninfo.Uri.shortScheme = ascii "postgres://" := by decide

theorem behindScheme_eq_none {url : Bytes} (h : isUri url = false) : Conninfo.Uri.behindScheme url = none := by
  rw [isUri, Bool.or_eq_false_iff] at h
  rw [Conninfo.Uri.behindScheme, longScheme_eq, shortScheme_eq, if_neg (Bool.eq_false_iff.mp h.2),
    if_neg (Bool.eq_false_iff.mp h.1)]

/-- What is written behind a blank makes no URI of a string that is none. -/
theorem isUri_blank {url : Bytes} (h : isUri url = false) (w : Bytes) : isUri (url ++ 0x20 :: w) = false := by
  rw [isUri, Bool.or_eq_false_iff] at h ⊢
  constructor
  · rw [Bool.eq_false_iff]
    intro hp
    rw [isPrefixOf_append_of_notMem (by decide) hp] at h
    exact absurd h.1 (by decide)
  · rw [Bool.eq_false_iff]
    intro hp
    rw [isPrefixOf_append_of_notMem (by decide) hp] at h
    exact absurd h.2 (by decide)

/-! ## Pairs between blanks -/

/-- What the reader knows of keywords: the defaults are keywords, the parameter they set on the server is none. -/
structure Libpq (known : Bytes → Bool) : Prop where
  defaults : ∀ d ∈ packageDefaults, known d.1 = true
  statement : known (ascii "statement_timeout") = false

theorem Libpq.known {known : Bytes → Bool} (h : Libpq known) {options : Bytes} :
    ∀ d ∈ Postgres.defaults options, known d.1 = true := by
  intro d hd
  have hkey : d.1 ∈ packageDefaults.map Prod.fst := by
    have hd := List.mem_map_of_mem (f := Prod.fst) hd
    rw [Postgres.defaults, List.map_append] at hd
    rw [packageDefaults, Postgres.defaults, List.map_append]
    exact hd
  obtain ⟨e, he, heq⟩ := List.mem_map.mp hkey
  exact heq ▸ h.defaults e he

/-- A default as it is written behind a blank. -/
def pair (d : Setting) : Bytes := 0x20 :: d.1 ++ EQUALS :: (spelled false d).2

theorem merge_kv {url : Bytes} (h : isUri url = false) (options : Bytes) :
    merge ((defaults options).map (spelled (isUri url))) url = url ++ (unset options url).flatMap pair := by
  rw [merge_eq, h]
  have hsep : ∀ out, sep out false = [0x20] := fun _ => rfl
  have hfold : ∀ (ds : List Setting) (out : Bytes),
      ds.foldl (fun out d => out ++ (sep out false ++ (d.1 ++ EQUALS :: (spelled false d).2))) out =
        out ++ ds.flatMap pair := by
    intro ds
    induction ds with
    | nil => intro out; rw [List.foldl_nil, List.flatMap_nil, List.append_nil]
    | cons d ds ih =>
      intro out
      rw [List.foldl_cons, ih, List.flatMap_cons, hsep, List.append_assoc]
      rfl
  exact hfold _ _

open Conninfo.Kv in
theorem isName_default {options : Bytes} {d : Setting} (hd : d ∈ defaults options) : IsName d.1 := by
  have hall : ∀ k ∈ plainDefaults.map Prod.fst ++ [ascii "options"], k ≠ [] ∧ ∀ b ∈ k, isWord false b = true := by
    decide
  refine hall d.1 ?_
  have hmem := List.mem_map_of_mem (f := Prod.fst) hd
  rwa [defaults, List.map_append] at hmem

open Conninfo.Kv in
/-- A default in front of `options` is written bare. -/
theorem bare_plainDefault : ∀ d ∈ plainDefaults, (spelled false d).2 = d.2 ∧
    d.2.head? ≠ some Conninfo.QUOTE ∧ d.2 ≠ [] ∧ ∀ b ∈ d.1 ++ EQUALS :: d.2, isWord true b = true := by
  decide

open Conninfo.Kv in
theorem spells_default {options : Bytes} (hoptions : IsOptions options) {d : Setting} (hd : d ∈ defaults options) :
    Conninfo.Kv.Spells (spelled false d).2 d.2 := by
  rcases List.mem_append.mp hd with hd | hd
  · obtain ⟨hspell, hquote, hne, hword⟩ := bare_plainDefault d hd
    obtain ⟨b, word, hvalue⟩ := List.exists_cons_of_ne_nil hne
    rw [hspell, hvalue]
    refine .bare (fun heq => hquote (by rw [hvalue, heq]; rfl)) fun c hc => hword c ?_
    rw [hvalue]
    exact List.mem_append_right _ (List.mem_cons_of_mem _ hc)
  · rw [List.mem_singleton.mp hd]
    refine Spells.quoted ?_
    cases hoptions with
    | statement => decide
    | readOnly => decide

theorem isUri_pairs {url : Bytes} (h : isUri url = false) (ds : List Setting) :
    isUri (url ++ ds.flatMap pair) = false := by
  cases ds with
  | nil => rwa [List.flatMap_nil, List.append_nil]
  | cons d ds => exact isUri_blank h _

/-- The defaults behind a string that leaves no value unfinished. -/
theorem run_pairs {options : Bytes} (hoptions : IsOptions options) {ds : List Setting}
    (hds : ∀ d ∈ ds, d ∈ defaults options) {s : Conninfo.Kv.State} {settings : List Setting}
    (hs : Conninfo.Kv.Closed s settings) :
    ∃ s', Conninfo.Kv.run s (ds.flatMap pair) = some s' ∧ Conninfo.Kv.Closed s' (settings ++ ds) := by
  induction ds generalizing s settings with
  | nil => exact ⟨s, rfl, by rwa [List.append_nil]⟩
  | cons d ds ih =>
    rw [List.forall_mem_cons] at hds
    obtain ⟨mid, hmid, hclosed⟩ := hs.run_pair (isName_default hds.1) (spells_default hoptions hds.1)
    obtain ⟨s', hrun, hclosed⟩ := ih hds.2 hclosed
    refine ⟨s', ?_, by rwa [List.append_assoc] at hclosed⟩
    rw [List.flatMap_cons, pair, Conninfo.Kv.run_trans hmid, hrun]

/-- The first default behind a string that ends within a value: when it is bare it goes into that value. -/
theorem run_unfinished {d : Setting} (hd : d ∈ plainDefaults) {s : Conninfo.Kv.State} {done : List Setting}
    {key value : Bytes} (hs : Conninfo.Kv.Unfinished s done key value) :
    ∃ other s', other ≠ value ∧ Conninfo.Kv.run s (pair d) = some s' ∧
      Conninfo.Kv.Closed s' (done ++ [(key, other)]) := by
  obtain ⟨hspell, -, -, hword⟩ := bare_plainDefault d hd
  obtain ⟨hne, hname⟩ := isName_default (List.mem_append_left [(ascii "options", [])] hd)
  obtain ⟨b, word, hkey⟩ := List.exists_cons_of_ne_nil hne
  have hquote : b ≠ Conninfo.QUOTE := by
    have hall : ∀ d ∈ plainDefaults, Conninfo.QUOTE ∉ d.1 := by decide
    intro heq
    exact hall d hd (by rw [hkey, ← heq]; exact List.mem_cons_self)
  rw [hkey, List.cons_append] at hword
  obtain ⟨more, hmore, hrun⟩ := hs.run_word hquote hword
  refine ⟨value ++ more, _, fun heq => hmore (List.append_right_eq_self.mp heq), ?_, .bare done key _⟩
  rw [pair, hspell, hkey]
  exact hrun

/-- `options` behind a string that ends within a value: its quoted text is no longer one value. -/
theorem options_refused {known : Bytes → Bool} (hknown : Libpq known) {options : Bytes} (hoptions : IsOptions options)
    {s : Conninfo.Kv.State} {done : List Setting} {key value : Bytes} (hs : Conninfo.Kv.Unfinished s done key value) :
    ((Conninfo.Kv.run s (pair (ascii "options", options))).bind Conninfo.Kv.finish).bind
      (·.mapM (Conninfo.kvSetting known)) = none := by
  have hhead : ∀ c ∈ 0x6F :: ascii "ptions='-c", Conninfo.Kv.isWord true c = true := by decide
  obtain ⟨more, -, hrun⟩ := hs.run_word (by decide) hhead
  have hname : Conninfo.Kv.IsName (ascii "statement_timeout") := ⟨by decide, by decide⟩
  have hblank := (Conninfo.Kv.Closed.bare done key (value ++ more)).blank
  have hbefore : Conninfo.Kv.run s (ascii " options='-c statement_timeout=") =
      some (done ++ [(key, value ++ more)], .beforeValue (ascii "statement_timeout")) := by
    rw [show ascii " options='-c statement_timeout=" =
      (0x20 :: 0x6F :: ascii "ptions='-c") ++ 0x20 :: (ascii "statement_timeout" ++ [EQUALS]) from by decide]
    rw [Conninfo.Kv.run_trans hrun, Conninfo.Kv.run_cons, hblank, Option.bind_some, Conninfo.Kv.run_isName hname]
  cases hoptions with
  | statement =>
    rw [show pair (ascii "options", statementTimeout) = ascii " options='-c statement_timeout=" ++ ascii "5000'" from
      by decide, Conninfo.Kv.run_trans hbefore]
    -- the parameter of the server is read as a keyword
    have hvalue : Conninfo.Kv.run (done ++ [(key, value ++ more)], .beforeValue (ascii "statement_timeout"))
        (ascii "5000'") = some (done ++ [(key, value ++ more)], .bare (ascii "statement_timeout") (ascii "5000'")) := rfl
    rw [hvalue, Option.bind_some, Conninfo.Kv.finish, Option.bind_some, Option.eq_none_iff_forall_ne_some]
    intro settings hsettings
    have hall := (Conninfo.mapM_kvSetting.mp hsettings).2
    have hst := hall (ascii "statement_timeout", ascii "5000'") (List.mem_append_right _ (List.mem_singleton_self _))
    rw [hknown.statement] at hst
    exact absurd hst (by decide)
  | readOnly =>
    rw [show pair (ascii "options", statementTimeout ++ readOnlyExtra) = ascii " options='-c statement_timeout=" ++
      ascii "5000 -c default_transaction_read_only=on'" from by decide, Conninfo.Kv.run_trans hbefore]
    rfl

/-- Behind an unfinished value its keyword is the last of the settings. -/
theorem unfinished_eq_some {url : Bytes} (huri : isUri url = false) {s : Conninfo.Kv.State}
    (hrun : Conninfo.Kv.run Conninfo.Kv.start url = some s) {done : List Setting} {key value : Bytes}
    (hs : Conninfo.Kv.Unfinished s done key value) : unfinished url = some key := by
  rw [unfinished, huri, hrun]
  cases hs <;> rfl

theorem unfinished_eq_none {url : Bytes} (huri : isUri url = false) {s : Conninfo.Kv.State}
    (hrun : Conninfo.Kv.run Conninfo.Kv.start url = some s) {settings : List Setting}
    (hs : Conninfo.Kv.Closed s settings) : unfinished url = none := by
  rw [unfinished, huri, hrun]
  cases hs <;> rfl

theorem read_kv {known : Bytes → Bool} {url : Bytes} (huri : isUri url = false) :
    Conninfo.read known url = (Conninfo.Kv.pairs url).bind (·.mapM (Conninfo.kvSetting known)) := by
  rw [Conninfo.read, behindScheme_eq_none huri]

/-- What the added defaults are read as behind the settings of a string. -/
theorem keeps_added_iff {options url : Bytes} {settings required ds : List Setting}
    (hds : ds.Sublist (unset options url)) (hrequired : ∀ d ∈ required, d ∈ defaults options) :
    Keeps settings (settings ++ ds) required ↔ Agrees settings ds ∧ Covers settings ds required := by
  have hsub : ds.Sublist (defaults options) := hds.trans (unset_sublist options url)
  refine Conninfo.keeps_append_iff ((nodup_defaults options).sublist (hsub.map _)) ?_
  intro d hd e he heq
  exact one_default (hrequired d hd) (hsub.subset he) heq

/-- Behind an unfinished value the first default is lost and changes it. -/
theorem unfinished_merged_iff {known : Bytes → Bool} (hknown : Libpq known) {options : Bytes}
    (hoptions : IsOptions options) {url : Bytes} (huri : isUri url = false) {s : Conninfo.Kv.State}
    (hrun : Conninfo.Kv.run Conninfo.Kv.start url = some s) {done : List Setting} {key value : Bytes}
    (hs : Conninfo.Kv.Unfinished s done key value) (hall : ∀ p ∈ done ++ [(key, value)], known p.1 = true)
    {required : List Setting} (hrequired : ∀ d ∈ required, d ∈ defaults options) {d : Setting} {ds : List Setting}
    (hunset : unset options url = d :: ds) :
    (∃ merged, Conninfo.read known (url ++ (unset options url).flatMap pair) = some merged ∧
        Keeps (done ++ [(key, value)]) merged required) ↔
      Agrees (done ++ [(key, value)]) ds ∧ Covers (done ++ [(key, value)]) ds required ∧ ∃ e ∈ ds, e.1 = key := by
  have hsub : (d :: ds).Sublist (defaults options) := hunset ▸ unset_sublist options url
  have hmem : ∀ e ∈ d :: ds, e ∈ defaults options := fun e he => hsub.subset he
  have hread : Conninfo.read known (url ++ (unset options url).flatMap pair) =
      ((Conninfo.Kv.run s (pair d ++ ds.flatMap pair)).bind Conninfo.Kv.finish).bind
        (·.mapM (Conninfo.kvSetting known)) := by
    rw [read_kv (isUri_pairs huri _), hunset, List.flatMap_cons, Conninfo.Kv.pairs, Conninfo.Kv.run_trans hrun]
  rcases List.mem_append.mp (hmem d List.mem_cons_self) with hd | hd
  · obtain ⟨other, mid, hne, hmid, hclosed⟩ := run_unfinished hd hs
    obtain ⟨s', hpairs, hclosed⟩ := run_pairs hoptions (fun e he => hmem e (List.mem_cons_of_mem _ he)) hclosed
    have hmerged : Conninfo.read known (url ++ (unset options url).flatMap pair) =
        some (done ++ [(key, other)] ++ ds) := by
      rw [hread, Conninfo.Kv.run_trans hmid, hpairs, Option.bind_some, hclosed.finish_eq, Option.bind_some,
        Conninfo.mapM_kvSetting]
      refine ⟨rfl, fun p hp => ?_⟩
      rcases List.mem_append.mp hp with hp | hp
      · rcases List.mem_append.mp hp with hp | hp
        · exact hall p (List.mem_append_left _ hp)
        · rw [List.mem_singleton.mp hp]
          exact hall (key, value) (List.mem_append_right _ (List.mem_singleton_self _))
      · exact hknown.known p (hmem p (List.mem_cons_of_mem _ hp))
    have hkeeps : Keeps (done ++ [(key, value)]) (done ++ [(key, other)] ++ ds) required ↔
        Agrees (done ++ [(key, value)]) ds ∧ Covers (done ++ [(key, value)]) ds required ∧ ∃ e ∈ ds, e.1 = key := by
      refine Conninfo.keeps_changed_iff ((nodup_defaults options).sublist ((List.sublist_of_cons_sublist hsub).map _))
        (fun e he f hf heq => one_default (hrequired e he) (hmem f (List.mem_cons_of_mem _ hf)) heq) ?_ ?_ hne ?_
      · rw [Conninfo.effective_append, Conninfo.effective_singleton, if_pos rfl]
        rfl
      · rw [Conninfo.effective_append, Conninfo.effective_singleton, if_pos rfl]
        rfl
      · intro k hk
        rw [Conninfo.effective_append, Conninfo.effective_append, Conninfo.effective_singleton,
          Conninfo.effective_singleton, if_neg hk, if_neg hk]
    rw [hmerged]
    constructor
    · rintro ⟨merged, heq, h⟩
      obtain rfl := Option.some.inj heq
      exact hkeeps.mp h
    · intro h
      exact ⟨_, rfl, hkeeps.mpr h⟩
  · -- `options` is the last default: there is none behind it
    have hnil : ds = [] := by
      obtain ⟨front, back, hsplit, hfront, hback⟩ := List.sublist_append_iff.mp hsub
      have hlength := hback.length_le
      cases front with
      | nil =>
        rw [← hsplit.trans (List.nil_append back)] at hlength
        exact List.eq_nil_of_length_eq_zero (by simpa using hlength)
      | cons e front =>
        have hplain : ∀ f ∈ plainDefaults, f.1 ≠ ascii "options" := by decide
        refine absurd (congrArg Prod.fst (List.mem_singleton.mp hd)) (hplain d (hfront.subset ?_))
        rw [(List.cons_eq_cons.mp hsplit).1]
        exact List.mem_cons_self
    subst hnil
    rw [List.mem_singleton.mp hd] at hread
    rw [hread, List.flatMap_nil, List.append_nil, options_refused hknown hoptions hs]
    constructor
    · rintro ⟨merged, heq, -⟩
      exact absurd heq (Option.some_ne_none _).symm
    · rintro ⟨-, -, e, he, -⟩
      exact absurd he List.not_mem_nil

theorem kv_merged_iff {known : Bytes → Bool} (hknown : Libpq known) {options : Bytes} (hoptions : IsOptions options)
    {url : Bytes} (huri : isUri url = false) {settings : List Setting} (hread : Conninfo.read known url = some settings)
    {required : List Setting} (hrequired : ∀ d ∈ required, d ∈ defaults options) :
    (∃ merged, Conninfo.read known (url ++ (unset options url).flatMap pair) = some merged ∧
        Keeps settings merged required) ↔ Mergeable options url required settings := by
  rw [read_kv huri, Conninfo.Kv.pairs] at hread
  obtain ⟨raw, hraw, hmap⟩ := Option.bind_eq_some_iff.mp hread
  obtain ⟨s, hrun, hfinish⟩ := Option.bind_eq_some_iff.mp hraw
  obtain ⟨rfl, hall⟩ := Conninfo.mapM_kvSetting.mp hmap
  have htakes : isUri url = true → unset options url ≠ [] → takesMore url = true := by
    rw [huri]
    intro h
    exact absurd h (by decide)
  rcases Conninfo.Kv.closed_or_unfinished hfinish with hs | ⟨done, key, value, hs, rfl⟩
  · -- everything that is missing is added
    have hopen := unfinished_eq_none huri hrun hs
    have hadded : added options url = unset options url := by
      rw [added, hopen]
      rfl
    obtain ⟨s', hpairs, hclosed⟩ := run_pairs hoptions (fun e he => (unset_sublist options url).subset he) hs
    have hmerged : Conninfo.read known (url ++ (unset options url).flatMap pair) = some (raw ++ unset options url) := by
      rw [read_kv (isUri_pairs huri _), Conninfo.Kv.pairs, Conninfo.Kv.run_trans hrun, hpairs, Option.bind_some,
        hclosed.finish_eq, Option.bind_some, Conninfo.mapM_kvSetting]
      refine ⟨rfl, fun p hp => ?_⟩
      exact (List.mem_append.mp hp).elim (hall p) fun hp => hknown.known p ((unset_sublist options url).subset hp)
    rw [hmerged]
    constructor
    · rintro ⟨merged, heq, h⟩
      obtain rfl := Option.some.inj heq
      obtain ⟨hagrees, hcovers⟩ := (keeps_added_iff (List.Sublist.refl _) hrequired).mp h
      rw [← hadded] at hagrees hcovers
      refine ⟨hagrees, hcovers, htakes, fun key hkey => ?_⟩
      rw [hopen] at hkey
      exact absurd hkey (Option.some_ne_none _).symm
    · intro h
      have hboth := And.intro h.agrees h.covers
      rw [hadded] at hboth
      exact ⟨_, rfl, (keeps_added_iff (List.Sublist.refl _) hrequired).mpr hboth⟩
  · have hopen := unfinished_eq_some huri hrun hs
    have hadded : added options url = (unset options url).tail := by
      rw [added, hopen]
      rfl
    cases hunset : unset options url with
    | nil =>
      -- nothing is missing and the string stands
      rw [hunset] at hadded
      have hread : Conninfo.read known url = some (done ++ [(key, value)]) := by
        rw [read_kv huri, Conninfo.Kv.pairs, hrun, Option.bind_some, hfinish, Option.bind_some, hmap]
      have hkeeps : Keeps (done ++ [(key, value)]) (done ++ [(key, value)]) required ↔
          Agrees (done ++ [(key, value)]) [] ∧ Covers (done ++ [(key, value)]) [] required := by
        have h : Keeps (done ++ [(key, value)]) (done ++ [(key, value)] ++ []) required ↔ _ :=
          keeps_added_iff (List.nil_sublist (unset options url)) hrequired
        rwa [List.append_nil] at h
      rw [List.flatMap_nil, List.append_nil, hread]
      constructor
      · rintro ⟨merged, heq, h⟩
        obtain rfl := Option.some.inj heq
        obtain ⟨hagrees, hcovers⟩ := hkeeps.mp h
        refine ⟨hadded ▸ hagrees, hadded ▸ hcovers, htakes, fun _ _ hne => absurd hunset hne⟩
      · intro h
        have hboth := And.intro h.agrees h.covers
        rw [hadded] at hboth
        exact ⟨_, rfl, hkeeps.mpr hboth⟩
    | cons d ds =>
      rw [hunset, List.tail_cons] at hadded
      rw [← hunset, unfinished_merged_iff hknown hoptions huri hrun hs hall hrequired hunset]
      constructor
      · rintro ⟨hagrees, hcovers, hreset⟩
        refine ⟨hadded ▸ hagrees, hadded ▸ hcovers, htakes, fun k hk _ => ?_⟩
        rw [hopen] at hk
        rw [hadded, ← Option.some.inj hk]
        exact hreset
      · intro h
        have hreset := h.reset key hopen (by rw [hunset]; exact List.cons_ne_nil _ _)
        have hboth := And.intro h.agrees (And.intro h.covers hreset)
        rwa [hadded] at hboth

/-! ## URIs -/

theorem behindScheme_append {url : Bytes} (h : isUri url = true) : ∃ scheme rest, url = scheme ++ rest ∧
    scheme.getLast? = some 0x2F ∧ QUESTION ∉ scheme ∧
      ∀ w, Conninfo.Uri.behindScheme (url ++ w) = some (rest ++ w) := by
  rw [isUri, Bool.or_eq_true] at h
  rcases h with h | h
  · obtain ⟨rest, rfl⟩ := List.isPrefixOf_iff_prefix.mp h
    refine ⟨_, rest, rfl, by decide, by decide, fun w => ?_⟩
    rw [List.append_assoc]
    rfl
  · obtain ⟨rest, rfl⟩ := List.isPrefixOf_iff_prefix.mp h
    refine ⟨_, rest, rfl, by decide, by decide, fun w => ?_⟩
    rw [List.append_assoc]
    rfl

/-- A default as it is written in a query. -/
def param (d : Setting) : Bytes := d.1 ++ EQUALS :: (spelled true d).2

open Conninfo.Uri in
/-- What the defaults are spelled with in a query. -/
theorem param_default {options : Bytes} (hoptions : IsOptions options) : ∀ d ∈ defaults options,
    (∀ b ∈ param d, isInner b = true ∧ b ≠ AMP) ∧ (∀ b ∈ d.1, isParam b = true) ∧
      (∀ b ∈ (spelled true d).2, isParam b = true) ∧ Conninfo.percentDecode d.1 = some d.1 ∧
      Conninfo.percentDecode (spelled true d).2 = some d.2 ∧ d.1 ∉ placed := by
  cases hoptions with
  | statement => decide
  | readOnly => decide

theorem getLast?_param {options : Bytes} (hoptions : IsOptions options) {d : Setting} (hd : d ∈ defaults options)
    (front : Bytes) : (front ++ param d).getLast? ≠ some QUESTION ∧ (front ++ param d).getLast? ≠ some AMP := by
  have hbytes := (param_default hoptions d hd).1
  have hne : param d ≠ [] := by simp [param]
  have hlast : (front ++ param d).getLast? = some ((param d).getLast hne) := by
    rw [List.getLast?_append_of_ne_nil _ hne, List.getLast?_eq_getLast_of_ne_nil hne]
  obtain ⟨hinner, hamp⟩ := hbytes _ (List.getLast_mem hne)
  simp only [Conninfo.Uri.isInner, Bool.and_eq_true, bne_iff_ne] at hinner
  rw [hlast]
  exact ⟨fun heq => hinner.1.1.1.2 (Option.some.inj heq), fun heq => hamp (Option.some.inj heq)⟩

/-- A query has been opened and there is something in it. -/
def Opened (out : Bytes) : Prop := ∃ a b, out = a ++ QUESTION :: b ∧ b ≠ []

theorem Opened.append {out : Bytes} (h : Opened out) (w : Bytes) : Opened (out ++ w) := by
  obtain ⟨a, b, rfl, hb⟩ := h
  exact ⟨a, b ++ w, by rw [List.append_assoc]; rfl, by simp [hb]⟩

theorem Opened.splitQuery {out : Bytes} (h : Opened out) : 0 < (splitQuery out).2.length := by
  obtain ⟨a, b, rfl, hb⟩ := h
  have hpos := List.length_pos_iff.mpr hb
  have hstop : (QUESTION :: b).dropWhile (· != QUESTION) = QUESTION :: b := by
    rw [List.dropWhile_cons_of_neg (by simp)]
  rw [Postgres.splitQuery, List.dropWhile_append, hstop]
  split
  · simpa using hpos
  · simp only [List.length_drop, List.length_append, List.length_cons]
    omega

/-- Once a query is opened the defaults are joined with `&`. -/
theorem foldl_params {options : Bytes} (hoptions : IsOptions options) {ds : List Setting}
    (hds : ∀ d ∈ ds, d ∈ defaults options) {out : Bytes} (hopen : Opened out)
    (hlast : out.getLast? ≠ some QUESTION ∧ out.getLast? ≠ some AMP) :
    ds.foldl (fun out d => out ++ (sep out true ++ param d)) out = out ++ ds.flatMap fun d => AMP :: param d := by
  induction ds generalizing out with
  | nil => rw [List.foldl_nil, List.flatMap_nil, List.append_nil]
  | cons d ds ih =>
    rw [List.forall_mem_cons] at hds
    have hsep : sep out true = [AMP] := by
      simp only [sep, Bool.not_true, Bool.false_eq_true, if_false]
      rw [if_neg (by simpa using hlast), if_pos hopen.splitQuery]
      rfl
    rw [List.foldl_cons, hsep, ih hds.2 (hopen.append _), List.flatMap_cons, List.append_assoc]
    · rfl
    · rw [← List.append_assoc]
      exact getLast?_param hoptions hds.1 _

theorem run_params {options : Bytes} (hoptions : IsOptions options) {ds : List Setting}
    (hds : ∀ d ∈ ds, d ∈ defaults options) (done : List Setting) (key value : Bytes) :
    ∃ s, Conninfo.Uri.run (done, .value key value) (ds.flatMap fun d => AMP :: param d) = some s ∧
      Conninfo.Uri.finish s = some (done ++ [(key, value)] ++ ds.map (spelled true)) := by
  induction ds generalizing done key value with
  | nil => exact ⟨_, rfl, by rw [List.map_nil, List.append_nil]; rfl⟩
  | cons d ds ih =>
    rw [List.forall_mem_cons] at hds
    obtain ⟨-, hkey, hvalue, -⟩ := param_default hoptions d hds.1
    obtain ⟨s, hrun, hfinish⟩ := ih hds.2 (done ++ [(key, value)]) d.1 (spelled true d).2
    refine ⟨s, ?_, ?_⟩
    · rw [List.flatMap_cons]
      exact (Conninfo.Uri.run_trans (Conninfo.Uri.run_next hkey hvalue) _).trans hrun
    · rw [hfinish, List.map_cons, show spelled true d = (d.1, (spelled true d).2) from
        Prod.ext (spelled_fst true d) rfl, List.append_assoc]
      rfl

/-- The defaults where a parameter may begin. -/
theorem run_query {options : Bytes} (hoptions : IsOptions options) {d : Setting} {ds : List Setting}
    (hds : ∀ e ∈ d :: ds, e ∈ defaults options) (done : List Setting) :
    ∃ s, Conninfo.Uri.run (done, .key []) (param d ++ ds.flatMap fun d => AMP :: param d) = some s ∧
      Conninfo.Uri.finish s = some (done ++ (d :: ds).map (spelled true)) := by
  rw [List.forall_mem_cons] at hds
  obtain ⟨-, hkey, hvalue, -⟩ := param_default hoptions d hds.1
  obtain ⟨s, hrun, hfinish⟩ := run_params hoptions hds.2 done d.1 (spelled true d).2
  refine ⟨s, ?_, ?_⟩
  · rw [param, Conninfo.Uri.run_trans (Conninfo.Uri.run_param hkey hvalue), hrun]
  · rw [hfinish, List.map_cons, show spelled true d = (d.1, (spelled true d).2) from
      Prod.ext (spelled_fst true d) rfl, List.append_assoc]
    rfl

theorem mapM_spelled {known : Bytes → Bool} (hknown : Libpq known) {options : Bytes} (hoptions : IsOptions options)
    {ds : List Setting} (hds : ∀ d ∈ ds, d ∈ defaults options) :
    (ds.map (spelled true)).mapM (Conninfo.uriSetting known) = some ds := by
  induction ds with
  | nil => rfl
  | cons d ds ih =>
    rw [List.forall_mem_cons] at hds
    obtain ⟨-, -, -, hkey, hvalue, -⟩ := param_default hoptions d hds.1
    have hd : Conninfo.uriSetting known (spelled true d) = some d := by
      rw [show spelled true d = (d.1, (spelled true d).2) from Prod.ext (spelled_fst true d) rfl]
      exact Conninfo.uriSetting_of hkey hvalue (hknown.known d hds.1)
    rw [List.map_cons, List.mapM_cons, hd, ih hds.2]
    rfl

/-- The bytes that are written behind a URI end no userinfo. -/
theorem written_bytes {options : Bytes} (hoptions : IsOptions options) {ds : List Setting}
    (hds : ∀ d ∈ ds, d ∈ defaults options) {front : Bytes} (hfront : ∀ b ∈ front, b = QUESTION ∨ b = AMP)
    {d : Setting} (hd : d ∈ defaults options) :
    ∀ b ∈ front ++ (param d ++ ds.flatMap fun d => AMP :: param d),
      b ≠ 0 ∧ b ≠ Conninfo.AT ∧ b ≠ Conninfo.SLASH := by
  have hparam : ∀ e ∈ defaults options, ∀ b ∈ param e, b ≠ 0 ∧ b ≠ Conninfo.AT ∧ b ≠ Conninfo.SLASH := by
    intro e he b hb
    have hinner := ((param_default hoptions e he).1 b hb).1
    simp only [Conninfo.Uri.isInner, Bool.and_eq_true, bne_iff_ne] at hinner
    exact ⟨hinner.1.1.1.1.1.1.1, hinner.2, hinner.1.1.1.1.2⟩
  intro b hb
  rcases List.mem_append.mp hb with hb | hb
  · rcases hfront b hb with rfl | rfl <;> decide
  · rcases List.mem_append.mp hb with hb | hb
    · exact hparam d hd b hb
    · obtain ⟨e, he, hb⟩ := List.mem_flatMap.mp hb
      rcases List.mem_cons.mp hb with rfl | hb
      · decide
      · exact hparam e (hds e he) b hb

/-- A URI that is read: what follows its scheme, and the state at its end. -/
structure IsRead (known : Bytes → Bool) (url : Bytes) (settings : List Setting) (rest : Bytes)
    (s : Conninfo.Uri.State) (raw : List Setting) : Prop where
  behind : ∀ w, Conninfo.Uri.behindScheme (url ++ w) = some (rest ++ w)
  endState : Conninfo.Uri.endState rest = some s
  finish : Conninfo.Uri.finish s = some raw
  settings : raw.mapM (Conninfo.uriSetting known) = some settings
  ends : Conninfo.Uri.Ends url s
  amp : url.getLast? = some AMP → ∃ front, rest = front ++ [AMP]
  question : QUESTION ∉ url → QUESTION ∉ rest

theorem userinfo_suffix (text : Bytes) : ∃ front, text = front ++ (Conninfo.Uri.userinfo text).2 := by
  have hsplit := List.takeWhile_append_dropWhile (p := fun b => b != Conninfo.AT && b != Conninfo.SLASH) (l := text)
  unfold Conninfo.Uri.userinfo
  dsimp only
  split
  · exact ⟨[], rfl⟩
  · next b rest hdrop =>
    split
    · rw [hdrop] at hsplit
      exact ⟨_ ++ [b], by rw [List.append_assoc]; exact hsplit.symm⟩
    · exact ⟨[], rfl⟩

theorem Ends.of_suffix {t : Bytes} {s : Conninfo.Uri.State} (h : Conninfo.Uri.Ends t s) (front : Bytes) :
    Conninfo.Uri.Ends (front ++ t) s := by
  have hlast : ∀ a b : Bytes, t = a ++ QUESTION :: b → (front ++ t).getLast? = t.getLast? := by
    intro a b heq
    have hne : t ≠ [] := by simp [heq]
    rw [List.getLast?_append_of_ne_nil _ hne]
  cases h with
  | outside h => exact .outside h
  | @key done key a b heq hend =>
    refine .key (a := front ++ a) (b := b) (by rw [heq, List.append_assoc]) ?_
    rw [hlast a b heq]
    exact hend
  | @value done key value a b heq hb hend =>
    refine .value (a := front ++ a) (b := b) (by rw [heq, List.append_assoc]) hb ?_
    rw [hlast a b heq]
    exact hend

theorem isRead_of_read {known : Bytes → Bool} {url : Bytes} (huri : isUri url = true) {settings : List Setting}
    (hread : Conninfo.read known url = some settings) : ∃ rest s raw, IsRead known url settings rest s raw := by
  obtain ⟨scheme, rest, rfl, hscheme, hquestion, hbehind⟩ := behindScheme_append huri
  have hnil := hbehind []
  rw [List.append_nil, List.append_nil] at hnil
  rw [Conninfo.read, hnil] at hread
  obtain ⟨raw, hraw, hmap⟩ := Option.bind_eq_some_iff.mp hread
  obtain ⟨s, hstate, hfinish⟩ := Option.bind_eq_some_iff.mp hraw
  refine ⟨rest, s, raw, hbehind, hstate, hfinish, hmap, ?_, ?_, fun h hmem => h (List.mem_append_right _ hmem)⟩
  · have hrun := hstate
    unfold Conninfo.Uri.endState at hrun
    split at hrun
    · exact absurd hrun (Option.some_ne_none _).symm
    · obtain ⟨front, hfront⟩ := userinfo_suffix rest
      have hends := Conninfo.Uri.ends_run
        (.netloc (Conninfo.Uri.userinfo_placed rest) .start [] []) hrun
      have hsuffix := Ends.of_suffix hends (scheme ++ front)
      rwa [List.append_assoc, ← hfront] at hsuffix
  · intro hamp
    cases rest using List.reverseRecOn with
    | nil =>
      rw [List.append_nil, hscheme] at hamp
      exact absurd (Option.some.inj hamp) (by decide)
    | append_singleton front b =>
      rw [← List.append_assoc, List.getLast?_concat] at hamp
      exact ⟨front, by rw [Option.some.inj hamp]⟩

section Read

variable {known : Bytes → Bool} {url rest : Bytes} {settings raw : List Setting} {s : Conninfo.Uri.State}

theorem IsRead.read_append (h : IsRead known url settings rest s raw) {w : Bytes}
    (hw : ∀ b ∈ w, b ≠ 0 ∧ b ≠ Conninfo.AT ∧ b ≠ Conninfo.SLASH) :
    Conninfo.read known (url ++ w) =
      ((Conninfo.Uri.run s w).bind Conninfo.Uri.finish).bind (·.mapM (Conninfo.uriSetting known)) := by
  rw [Conninfo.read, h.behind]
  show (((Conninfo.Uri.endState (rest ++ w)).bind Conninfo.Uri.finish).bind _) = _
  rw [Conninfo.Uri.endState_append hw, h.endState]
  rfl

theorem IsRead.takesMore_eq (h : IsRead known url settings rest s raw) :
    takesMore url = match s with
      | (_, .key _) => true
      | (_, .value _ _) => url.getLast? != some QUESTION
      | _ => !url.contains QUESTION && url.getLast? != some AMP := by
  have hnil := h.behind []
  rw [List.append_nil, List.append_nil] at hnil
  rw [takesMore, hnil, Option.bind_some, h.endState]
  obtain ⟨done, place⟩ := s
  cases place <;> rfl

/-- The defaults behind what opens or goes on with a query. -/
theorem IsRead.read_joined (h : IsRead known url settings rest s raw) (hknown : Libpq known) {options : Bytes}
    (hoptions : IsOptions options) {d : Setting} {ds : List Setting} (hds : ∀ e ∈ d :: ds, e ∈ defaults options)
    {front : Bytes} (hfront : ∀ b ∈ front, b = QUESTION ∨ b = AMP)
    (hrun : Conninfo.Uri.run s front = some (raw, .key [])) :
    Conninfo.read known (url ++ (front ++ (param d ++ ds.flatMap fun d => AMP :: param d))) =
      some (settings ++ d :: ds) := by
  rw [List.forall_mem_cons] at hds
  obtain ⟨s', hquery, hfinish⟩ := run_query hoptions (List.forall_mem_cons.mpr hds) raw
  rw [h.read_append (written_bytes hoptions hds.2 hfront hds.1), Conninfo.Uri.run_trans hrun, hquery,
    Option.bind_some, hfinish, Option.bind_some]
  exact Conninfo.mapM_append_eq h.settings (mapM_spelled hknown hoptions (List.forall_mem_cons.mpr hds))

/-- In front of a query no default is set. -/
theorem IsRead.unset_of_outside (h : IsRead known url settings rest s raw) (hs : Conninfo.Uri.Outside s)
    {options : Bytes} (hoptions : IsOptions options) {d : Setting} (hd : d ∈ defaults options) :
    effective settings d.1 = none := by
  obtain ⟨-, -, -, -, -, hplaced⟩ := param_default hoptions d hd
  rw [Conninfo.effective_eq_none_iff]
  intro p hp heq
  exact hplaced (heq ▸ Conninfo.mem_placed_of_mapM h.settings (hs.finish_placed h.finish) p hp)

end Read

/-- The merged URI, once the first default stands in a query. -/
theorem merge_uri {url options : Bytes} (huri : isUri url = true) (hoptions : IsOptions options) {d : Setting}
    {ds : List Setting} (hunset : unset options url = d :: ds) (hopen : Opened (url ++ (sep url true ++ param d))) :
    merge ((defaults options).map (spelled (isUri url))) url =
      url ++ (sep url true ++ (param d ++ ds.flatMap fun d => AMP :: param d)) := by
  have hmem : ∀ e ∈ d :: ds, e ∈ defaults options := fun e he => (unset_sublist options url).subset (hunset ▸ he)
  rw [List.forall_mem_cons] at hmem
  have hlast : (url ++ (sep url true ++ param d)).getLast? ≠ some QUESTION ∧
      (url ++ (sep url true ++ param d)).getLast? ≠ some AMP := by
    rw [← List.append_assoc]
    exact getLast?_param hoptions hmem.1 _
  rw [merge_eq, hunset, huri, List.foldl_cons]
  rw [show url ++ (sep url true ++ (d.1 ++ EQUALS :: (spelled true d).2)) = url ++ (sep url true ++ param d) from rfl]
  rw [show (fun out (d : Setting) => out ++ (sep out true ++ (d.1 ++ EQUALS :: (spelled true d).2))) =
    fun out d => out ++ (sep out true ++ param d) from rfl]
  rw [foldl_params hoptions hmem.2 hopen hlast]
  simp only [List.append_assoc]

section Merged

variable {known : Bytes → Bool} {url rest options : Bytes} {settings raw required ds : List Setting}
  {s : Conninfo.Uri.State} {d : Setting}

/-- Where the first default can stand in a query, the merged URI is read as the settings and the defaults. -/
theorem IsRead.merged_of_takes (h : IsRead known url settings rest s raw) (hknown : Libpq known)
    (huri : isUri url = true) (hoptions : IsOptions options) (hunset : unset options url = d :: ds)
    (htakes : takesMore url = true) :
    Conninfo.read known (merge ((defaults options).map (spelled (isUri url))) url) = some (settings ++ d :: ds) := by
  have hmem : ∀ e ∈ d :: ds, e ∈ defaults options := fun e he => (unset_sublist options url).subset (hunset ▸ he)
  have hparam : param d ≠ [] := by simp [param]
  -- the separator that is written, and where it takes the reader
  obtain ⟨hsep, hrun, hopen⟩ : (∀ b ∈ sep url true, b = QUESTION ∨ b = AMP) ∧
      Conninfo.Uri.run s (sep url true) = some (raw, .key []) ∧ Opened (url ++ (sep url true ++ param d)) := by
    rw [h.takesMore_eq] at htakes
    have hfinish := h.finish
    cases h.ends with
    | outside hout =>
      have hnone : QUESTION ∉ url ∧ url.getLast? ≠ some AMP := by
        cases hout with
        | netloc hdone within hosts ports => simpa using htakes
        | dbname hdone name => simpa using htakes
      have hlast : url.getLast? ≠ some QUESTION := fun heq => hnone.1 (List.mem_of_getLast? heq)
      have hsep : sep url true = [QUESTION] := by
        simp only [sep, Bool.not_true, Bool.false_eq_true, if_false]
        rw [if_neg (by simp [hlast, hnone.2]), splitQuery_notMem hnone.1]
        rfl
      rw [hsep]
      refine ⟨fun b hb => Or.inl (List.mem_singleton.mp hb), ?_, url, param d, rfl, hparam⟩
      rw [Conninfo.Uri.run_cons, hout.question hfinish]
      rfl
    | @key done key a b heq hend =>
      rw [Conninfo.Uri.finish] at hfinish
      split at hfinish
      · next hkey =>
        obtain rfl := Option.some.inj hfinish
        have hsep : sep url true = [] := by
          simp only [sep, Bool.not_true, Bool.false_eq_true, if_false]
          rw [if_pos (by simpa using hend hkey)]
        rw [hsep, hkey]
        exact ⟨fun b hb => absurd hb List.not_mem_nil, rfl, a, b ++ param d, by rw [heq]; simp, by simp [hparam]⟩
      · exact absurd hfinish (Option.some_ne_none _).symm
    | @value done key value a b heq hb hend =>
      obtain rfl := Option.some.inj hfinish
      have hopened : Opened url := ⟨a, b, heq, hb⟩
      have hlast : url.getLast? ≠ some QUESTION := by simpa using htakes
      have hsep : sep url true = [AMP] := by
        simp only [sep, Bool.not_true, Bool.false_eq_true, if_false]
        rw [if_neg (by simp [hlast, hend]), if_pos hopened.splitQuery]
        rfl
      rw [hsep]
      exact ⟨fun b hb => Or.inr (List.mem_singleton.mp hb), rfl, hopened.append _⟩
  rw [merge_uri huri hoptions hunset hopen]
  exact h.read_joined hknown hoptions hmem hsep hrun

/-- Behind a value that ends in `?` the keyword of the first default is more of the value. -/
theorem IsRead.refused_of_value (h : IsRead known url settings rest s raw) (huri : isUri url = true)
    (hoptions : IsOptions options) (hunset : unset options url = d :: ds) {done : List Setting} {key value : Bytes}
    (hs : s = (done, .value key value)) (hlast : url.getLast? = some QUESTION) :
    Conninfo.read known (merge ((defaults options).map (spelled (isUri url))) url) = none := by
  have hmem : ∀ e ∈ d :: ds, e ∈ defaults options := fun e he => (unset_sublist options url).subset (hunset ▸ he)
  rw [List.forall_mem_cons] at hmem
  have hsep : sep url true = [] := by
    simp only [sep, Bool.not_true, Bool.false_eq_true, if_false]
    rw [if_pos (by simp [hlast])]
  have hends := h.ends
  rw [hs] at hends
  obtain ⟨a, b, heq⟩ : ∃ a b, url = a ++ QUESTION :: b := by
    cases hends with
    | outside hout => cases hout
    | value heq => exact ⟨_, _, heq⟩
  have hopen : Opened (url ++ (sep url true ++ param d)) :=
    ⟨a, b ++ param d, by rw [hsep, heq]; simp, by simp [param]⟩
  obtain ⟨-, hkey, -⟩ := param_default hoptions d hmem.1
  rw [merge_uri huri hoptions hunset hopen, hsep,
    h.read_append (written_bytes hoptions hmem.2 (fun b hb => absurd hb List.not_mem_nil) hmem.1), List.nil_append,
    hs, param, List.append_assoc, List.cons_append, Conninfo.Uri.run_value_equals hkey]
  rfl

/-- A `?` that opened no query: the defaults go into the part that the URI ends in. -/
theorem IsRead.lost_of_question (h : IsRead known url settings rest s raw) (huri : isUri url = true)
    (hoptions : IsOptions options) (hunset : unset options url = d :: ds) (hs : Conninfo.Uri.Outside s)
    (hquestion : QUESTION ∈ url) {merged : List Setting}
    (hmerged : Conninfo.read known (merge ((defaults options).map (spelled (isUri url))) url) = some merged) :
    ∀ e ∈ defaults options, effective merged e.1 = none := by
  have hmem : ∀ e ∈ d :: ds, e ∈ defaults options := fun e he => (unset_sublist options url).subset (hunset ▸ he)
  rw [List.forall_mem_cons] at hmem
  have hsplit := splitQuery_eq hquestion
  have hsep : ∀ b ∈ sep url true, b = AMP := by
    intro b hb
    simp only [sep, Bool.not_true, Bool.false_eq_true, if_false] at hb
    split at hb
    · exact absurd hb List.not_mem_nil
    · next hlast =>
      split at hb
      · exact List.mem_singleton.mp hb
      · next hempty =>
        have hnil : (splitQuery url).2 = [] := List.eq_nil_of_length_eq_zero (by omega)
        obtain ⟨front, hfront⟩ : ∃ front, url = front ++ [QUESTION] :=
          ⟨_, by conv_lhs => rw [hsplit, hnil]⟩
        refine absurd ?_ hlast
        rw [hfront, List.getLast?_concat]
        rfl
  obtain ⟨a, b, hab⟩ : ∃ a b, url = a ++ QUESTION :: b := ⟨_, _, hsplit⟩
  have hopen : Opened (url ++ (sep url true ++ param d)) :=
    ⟨a, b ++ (sep url true ++ param d), by rw [hab]; simp, by simp [param]⟩
  have hparam : ∀ e ∈ defaults options, QUESTION ∉ param e := by
    intro e he hb
    have hinner := ((param_default hoptions e he).1 QUESTION hb).1
    exact absurd hinner (by decide)
  rw [merge_uri huri hoptions hunset hopen,
    h.read_append (written_bytes hoptions hmem.2 (fun b hb => Or.inr (hsep b hb)) hmem.1)] at hmerged
  obtain ⟨raw', hraw, hmap⟩ := Option.bind_eq_some_iff.mp hmerged
  obtain ⟨s', hrun, hfinish⟩ := Option.bind_eq_some_iff.mp hraw
  have hout : Conninfo.Uri.Outside s' := by
    refine hs.run ?_ hrun
    intro hb
    rcases List.mem_append.mp hb with hb | hb
    · exact absurd (hsep _ hb) (by decide)
    · rcases List.mem_append.mp hb with hb | hb
      · exact hparam d hmem.1 hb
      · obtain ⟨e, he, hb⟩ := List.mem_flatMap.mp hb
        rcases List.mem_cons.mp hb with hb | hb
        · exact absurd hb (by decide)
        · exact hparam e (hmem.2 e he) hb
  intro e he
  obtain ⟨-, -, -, -, -, hplaced⟩ := param_default hoptions e he
  rw [Conninfo.effective_eq_none_iff]
  intro p hp heq
  exact hplaced (heq ▸ Conninfo.mem_placed_of_mapM hmap (hout.finish_placed hfinish) p hp)

theorem unset_eq_defaults (huri : isUri url = true) (hquestion : QUESTION ∉ url) :
    unset options url = defaults options := by
  have hscope : scopeOf url = [] := by
    rw [scopeOf, huri, splitQuery_notMem hquestion]
    rfl
  rw [unset, missing, hscope]
  exact List.filter_eq_self.mpr fun d _ => rfl

/-- The merged URI behind an `&` that is no separator: the first default has none either, and the second opens the
query. -/
theorem merge_amp (huri : isUri url = true) (hoptions : IsOptions options) (hquestion : QUESTION ∉ url)
    (hlast : url.getLast? = some AMP) {e : Setting} (hdefaults : defaults options = d :: e :: ds) :
    merge ((defaults options).map (spelled (isUri url))) url =
      url ++ (param d ++ (QUESTION :: (param e ++ ds.flatMap fun d => AMP :: param d))) := by
  have hmem : ∀ e' ∈ d :: e :: ds, e' ∈ defaults options := fun _ he => hdefaults ▸ he
  rw [List.forall_mem_cons, List.forall_mem_cons] at hmem
  have hfirst : sep url true = [] := by
    simp only [sep, Bool.not_true, Bool.false_eq_true, if_false]
    rw [if_pos (by simp [hlast])]
  have hnot : QUESTION ∉ url ++ param d := by
    intro hb
    rcases List.mem_append.mp hb with hb | hb
    · exact hquestion hb
    · exact absurd ((param_default hoptions d hmem.1).1 QUESTION hb).1 (by decide)
  have hsecond : sep (url ++ param d) true = [QUESTION] := by
    have hends := getLast?_param hoptions hmem.1 url
    simp only [sep, Bool.not_true, Bool.false_eq_true, if_false]
    rw [if_neg (by simpa using hends), splitQuery_notMem hnot]
    rfl
  have hopen : Opened (url ++ param d ++ (QUESTION :: param e)) := ⟨_, _, rfl, by simp [param]⟩
  have hend : (url ++ param d ++ (QUESTION :: param e)).getLast? ≠ some QUESTION ∧
      (url ++ param d ++ (QUESTION :: param e)).getLast? ≠ some AMP := by
    have hends := getLast?_param hoptions hmem.2.1 (url ++ param d ++ [QUESTION])
    rwa [List.append_assoc, List.singleton_append] at hends
  rw [merge_eq, unset_eq_defaults huri hquestion, huri, hdefaults,
    show (fun out (d : Setting) => out ++ (sep out true ++ (d.1 ++ EQUALS :: (spelled true d).2))) =
      fun out d => out ++ (sep out true ++ param d) from rfl,
    List.foldl_cons, hfirst, List.nil_append, List.foldl_cons, hsecond, List.singleton_append,
    foldl_params hoptions hmem.2.2 hopen hend]
  simp only [List.append_assoc, List.cons_append]

/-- Behind an `&` that is no separator the first default changes the part that the URI ends in. -/
theorem IsRead.changed_of_amp (h : IsRead known url settings rest s raw) (hknown : Libpq known)
    (huri : isUri url = true) (hoptions : IsOptions options) (hs : Conninfo.Uri.Outside s)
    (hquestion : QUESTION ∉ url) (hlast : url.getLast? = some AMP) {merged : List Setting}
    (hmerged : Conninfo.read known (merge ((defaults options).map (spelled (isUri url))) url) = some merged) :
    ¬Keeps settings merged required := by
  obtain ⟨d, e, ds, hdefaults⟩ : ∃ d e ds, defaults options = d :: e :: ds := ⟨_, _, _, rfl⟩
  have hmem : ∀ e' ∈ d :: e :: ds, e' ∈ defaults options := fun _ he => hdefaults ▸ he
  have hall := hmem
  rw [List.forall_mem_cons, List.forall_mem_cons] at hall
  -- the part that ends in the `&`
  obtain ⟨front, last, post, hgrows⟩ : ∃ front last post, Conninfo.Uri.Grows s front last post := by
    obtain ⟨text, hrest⟩ := h.amp hlast
    have hstate := h.endState
    rw [hrest, Conninfo.Uri.endState_append (by decide)] at hstate
    obtain ⟨before, hbefore, hstep⟩ := Option.bind_eq_some_iff.mp hstate
    rw [Conninfo.Uri.run_cons] at hstep
    obtain ⟨s', hamp, heq⟩ := Option.bind_eq_some_iff.mp hstep
    obtain rfl : s' = s := Option.some.inj heq
    have hout : Conninfo.Uri.Outside before := by
      unfold Conninfo.Uri.endState at hbefore
      split at hbefore
      · exact absurd hbefore (Option.some_ne_none _).symm
      · refine Conninfo.Uri.Outside.run (.netloc (Conninfo.Uri.userinfo_placed text) .start [] []) ?_ hbefore
        intro hb
        obtain ⟨skipped, hskipped⟩ := userinfo_suffix text
        refine h.question hquestion ?_
        rw [hrest, hskipped]
        simp [hb]
    exact hout.grows hamp h.finish
  obtain ⟨key, value⟩ := last
  obtain ⟨s', hrun, hgrown⟩ := hgrows.run_inner fun b hb => ((param_default hoptions d hall.1).1 b hb).1
  have hout : Conninfo.Uri.Outside s' := hs.run
    (fun hb => absurd ((param_default hoptions d hall.1).1 QUESTION hb).1 (by decide)) hrun
  obtain ⟨last, hquery, hfinish⟩ := run_query hoptions (List.forall_mem_cons.mpr hall.2)
    (front ++ (key, value ++ param d) :: post)
  have hbytes : ∀ b ∈ param d ++ (QUESTION :: (param e ++ ds.flatMap fun d => AMP :: param d)),
      b ≠ 0 ∧ b ≠ Conninfo.AT ∧ b ≠ Conninfo.SLASH := by
    have hfirst := written_bytes hoptions (fun e he => absurd he List.not_mem_nil)
      (fun b hb => absurd hb List.not_mem_nil) hall.1
    have hothers := written_bytes hoptions hall.2.2 (fun b hb => Or.inl (List.mem_singleton.mp hb)) hall.2.1
    intro b hb
    rcases List.mem_append.mp hb with hb | hb
    · exact hfirst b (by simpa using hb)
    · exact hothers b hb
  rw [merge_amp huri hoptions hquestion hlast hdefaults, h.read_append hbytes, Conninfo.Uri.run_trans hrun,
    Conninfo.Uri.run_cons, hout.question hgrown.finish_eq, Option.bind_some, hquery, Option.bind_some, hfinish,
    Option.bind_some] at hmerged
  -- the settings of the two, apart from that part
  have hsettings := h.settings
  have hraw : raw = front ++ (key, value) :: post := Option.some.inj (h.finish.symm.trans hgrows.finish_eq)
  have hplaced := hs.finish_placed hgrows.finish_eq
  rw [hraw] at hsettings
  obtain ⟨first, others, hfront, htail, rfl⟩ := Conninfo.mapM_append_inv hsettings
  obtain ⟨⟨k, v⟩, rest', hpart, hpost, rfl⟩ := Conninfo.mapM_cons_inv htail
  obtain ⟨hkey, hvalue, hknownKey⟩ := Conninfo.uriSetting_eq_some hpart
  obtain ⟨-, -, -, hname, htext, -⟩ := param_default hoptions d hall.1
  have hdecoded : Conninfo.percentDecode (param d) = some (d.1 ++ EQUALS :: d.2) := by
    rw [param, Conninfo.percentDecode_append hname, Conninfo.percentDecode_cons (by decide), htext]
    rfl
  have hchanged : Conninfo.uriSetting known (key, value ++ param d) = some (k, v ++ (d.1 ++ EQUALS :: d.2)) := by
    refine Conninfo.uriSetting_of hkey ?_ hknownKey
    rw [Conninfo.percentDecode_append hvalue, hdecoded]
    rfl
  have hbase := Conninfo.mapM_append_eq hfront (Conninfo.mapM_cons_eq hchanged hpost)
  rw [Conninfo.mapM_append_eq hbase (mapM_spelled hknown hoptions (List.forall_mem_cons.mpr hall.2))] at hmerged
  obtain rfl := Option.some.inj hmerged
  have hk : k = key := Conninfo.uriSetting_placed hpart hgrows.placed
  have hnone : effective rest' k = none := by
    rw [Conninfo.effective_eq_none_iff]
    intro p hp heq
    have hmap := List.mem_map_of_mem (f := Prod.fst) hp
    rw [Conninfo.map_fst_placed hpost fun p hp =>
      hplaced p (List.mem_append_right _ (List.mem_cons_of_mem _ hp))] at hmap
    obtain ⟨q, hq, hfst⟩ := List.mem_map.mp hmap
    exact hgrows.key_notMem q hq (by rw [hfst, heq, hk])
  have hadded : ∀ e' ∈ e :: ds, e'.1 ≠ k := by
    intro e' he heq
    obtain ⟨-, -, -, -, -, hnot⟩ := param_default hoptions e' (hmem e' (List.mem_cons_of_mem _ he))
    exact hnot (by rw [heq, hk]; exact hgrows.placed)
  have hlook : ∀ w, effective (first ++ (k, w) :: rest') k = some w := by
    intro w
    rw [← List.singleton_append, Conninfo.effective_append, Conninfo.effective_append, hnone,
      Conninfo.effective_singleton, if_pos rfl]
    rfl
  rintro ⟨hkept, -⟩
  have hsame := hkept k v (hlook v)
  rw [Conninfo.effective_append_of_notMem hadded, hlook] at hsame
  have hlen := congrArg List.length (Option.some.inj hsame)
  simp only [List.length_append, List.length_cons] at hlen
  omega

end Merged

theorem uri_merged_iff {known : Bytes → Bool} (hknown : Libpq known) {options : Bytes} (hoptions : IsOptions options)
    {url : Bytes} (huri : isUri url = true) {settings : List Setting} (hread : Conninfo.read known url = some settings)
    {required : List Setting} (hrequired : ∀ d ∈ required, d ∈ defaults options) (hsome : required ≠ []) :
    (∃ merged, Conninfo.read known (merge ((defaults options).map (spelled (isUri url))) url) = some merged ∧
        Keeps settings merged required) ↔ Mergeable options url required settings := by
  obtain ⟨rest, s, raw, h⟩ := isRead_of_read huri hread
  have hopen : unfinished url = none := by rw [unfinished, if_pos huri]
  have hadded : added options url = unset options url := by
    rw [added, hopen]
    rfl
  have hreset : ∀ key, unfinished url = some key → unset options url ≠ [] →
      ∃ d ∈ added options url, d.1 = key := by
    intro key hkey
    rw [hopen] at hkey
    exact absurd hkey (Option.some_ne_none _).symm
  cases hunset : unset options url with
  | nil =>
    have hkeeps : Keeps settings settings required ↔ Agrees settings [] ∧ Covers settings [] required := by
      have h : Keeps settings (settings ++ []) required ↔ _ :=
        keeps_added_iff (List.nil_sublist (unset options url)) hrequired
      rwa [List.append_nil] at h
    rw [hunset] at hadded
    rw [merge_eq, hunset, List.foldl_nil, hread]
    constructor
    · rintro ⟨merged, heq, hboth⟩
      obtain rfl := Option.some.inj heq
      obtain ⟨hagrees, hcovers⟩ := hkeeps.mp hboth
      exact ⟨hadded ▸ hagrees, hadded ▸ hcovers, fun _ hne => absurd hunset hne, hreset⟩
    · intro hm
      have hboth := And.intro hm.agrees hm.covers
      rw [hadded] at hboth
      exact ⟨_, rfl, hkeeps.mpr hboth⟩
  | cons d ds =>
    have hne : unset options url ≠ [] := by rw [hunset]; exact List.cons_ne_nil _ _
    by_cases htakes : takesMore url = true
    · rw [h.merged_of_takes hknown huri hoptions hunset htakes, ← hunset]
      constructor
      · rintro ⟨merged, heq, hboth⟩
        obtain rfl := Option.some.inj heq
        obtain ⟨hagrees, hcovers⟩ := (keeps_added_iff (List.Sublist.refl _) hrequired).mp hboth
        exact ⟨hadded ▸ hagrees, hadded ▸ hcovers, fun _ _ => htakes, hreset⟩
      · intro hm
        have hboth := And.intro hm.agrees hm.covers
        rw [hadded] at hboth
        exact ⟨_, rfl, (keeps_added_iff (List.Sublist.refl _) hrequired).mpr hboth⟩
    · -- the defaults do not become settings
      refine iff_of_false ?_ fun hm => htakes (hm.takes huri hne)
      rintro ⟨merged, hmerged, hkeeps⟩
      rw [h.takesMore_eq] at htakes
      have hends := h.ends
      have hfinish := h.finish
      have hlost : Conninfo.Uri.Outside s → ¬(!url.contains QUESTION && url.getLast? != some AMP) = true → False := by
        intro hout hnot
        by_cases hquestion : QUESTION ∈ url
        · have hnone := h.lost_of_question huri hoptions hunset hout hquestion hmerged
          obtain ⟨e, more, rfl⟩ := List.exists_cons_of_ne_nil hsome
          have he := hrequired e List.mem_cons_self
          have hgiven := hkeeps.2 e List.mem_cons_self (h.unset_of_outside hout hoptions he)
          rw [hnone e he] at hgiven
          exact absurd hgiven (Option.some_ne_none _).symm
        · have hlast : url.getLast? = some AMP := by
            by_contra hlast
            exact hnot (by simp [hquestion, hlast])
          exact h.changed_of_amp hknown huri hoptions hout hquestion hlast hmerged hkeeps
      cases hends with
      | outside hout =>
        cases hout with
        | netloc hdone within hosts ports => exact hlost (.netloc hdone within hosts ports) htakes
        | dbname hdone name => exact hlost (.dbname hdone name) htakes
      | key => exact htakes rfl
      | value =>
        have hlast : url.getLast? = some QUESTION := by
          by_contra hlast
          exact htakes (by simpa using hlast)
        rw [h.refused_of_value huri hoptions hunset rfl hlast] at hmerged
        exact absurd hmerged (Option.some_ne_none _).symm

/-! ## Both spellings -/

theorem merged_iff {known : Bytes → Bool} (hknown : Libpq known) {options : Bytes} (hoptions : IsOptions options)
    {url : Bytes} {settings : List Setting} (hread : Conninfo.read known url = some settings)
    {required : List Setting} (hrequired : ∀ d ∈ required, d ∈ defaults options) (hsome : required ≠ []) :
    (∃ merged, Conninfo.read known (merge ((defaults options).map (spelled (isUri url))) url) = some merged ∧
        Keeps settings merged required) ↔ Mergeable options url required settings := by
  cases huri : isUri url with
  | false =>
    have hmerge := merge_kv huri options
    rw [huri] at hmerge
    rw [hmerge]
    exact kv_merged_iff hknown hoptions huri hread hrequired
  | true =>
    have hboth := uri_merged_iff hknown hoptions huri hread hrequired hsome
    rwa [huri] at hboth

/-- What `with_defaults` promises of a string with these settings. -/
def DefaultsKept (known : Bytes → Bool) (url : Bytes) (settings : List Setting) : Prop :=
  ∃ merged, Conninfo.read known (withDefaults url) = some merged ∧ Keeps settings merged packageDefaults

/-- The two commands as the value of `options`. -/
def readOnlyOptions : Setting := (ascii "options", statementTimeout ++ readOnlyExtra)

/-- What `read_only` promises: it refuses a string that sets `options`, or keeps its settings and adds the two
commands. -/
def ReadOnlyKept (known : Bytes → Bool) (url : Bytes) (settings : List Setting) : Prop :=
  match readOnly url with
  | .error _ => effective settings (ascii "options") ≠ none
  | .ok out => ∃ merged, Conninfo.read known out = some merged ∧
      (∀ key value, effective settings key = some value → effective merged key = some value) ∧
      effective merged readOnlyOptions.1 = some readOnlyOptions.2

/-- What has to hold of a string for `read_only` to keep its promise. -/
def ReadOnlyMergeable (url : Bytes) (settings : List Setting) : Prop :=
  if hasKeyword url (ascii "options") then effective settings (ascii "options") ≠ none
  else Mergeable (statementTimeout ++ readOnlyExtra) url [readOnlyOptions] settings

/-- Where the search does not find `options`, the two commands end up as a setting. -/
theorem readOnlyOptions_mem_added {url : Bytes} (h : hasKeyword url (ascii "options") = false)
    {required settings : List Setting} (hm : Mergeable (statementTimeout ++ readOnlyExtra) url required settings) :
    readOnlyOptions ∈ added (statementTimeout ++ readOnlyExtra) url := by
  have hscope : hasKeyword (scopeOf url) (ascii "options") = false := by
    rw [Bool.eq_false_iff]
    intro hfound
    rw [hasKeyword_of_scope hfound] at h
    exact absurd h (by decide)
  have hunset : unset (statementTimeout ++ readOnlyExtra) url = missing plainDefaults url ++ [readOnlyOptions] := by
    rw [unset, missing, defaults, List.filter_append, List.filter_singleton, hscope]
    rfl
  cases hopen : unfinished url with
  | none =>
    rw [added, hopen, hunset]
    exact List.mem_append_right _ (List.mem_singleton_self _)
  | some key =>
    have hadded : added (statementTimeout ++ readOnlyExtra) url = (missing plainDefaults url ++ [readOnlyOptions]).tail := by
      rw [added, hopen, hunset]
      rfl
    obtain ⟨d, hd, -⟩ := hm.reset key hopen (by rw [hunset]; simp)
    rw [hadded] at hd ⊢
    cases hplain : missing plainDefaults url with
    | nil =>
      rw [hplain] at hd
      exact absurd hd List.not_mem_nil
    | cons e ds => exact List.mem_append_right _ (List.mem_singleton_self _)

/-- The first is `merged_iff` for the package's defaults, the second for the two commands. -/
theorem defaults_kept_iff (known : Bytes → Bool) (hknown : Libpq known) (url : Bytes) (settings : List Setting)
    (hread : Conninfo.read known url = some settings) :
    (DefaultsKept known url settings ↔ Mergeable statementTimeout url packageDefaults settings) ∧
      (ReadOnlyKept known url settings ↔ ReadOnlyMergeable url settings) := by
  constructor
  · rw [DefaultsKept, withDefaults_eq]
    exact merged_iff hknown .statement hread (fun d hd => hd) (by decide)
  · rw [ReadOnlyKept, ReadOnlyMergeable]
    cases hfound : hasKeyword url (ascii "options") with
    | true =>
      rw [readOnly, if_pos hfound, if_pos rfl]
    | false =>
      rw [readOnly_eq hfound, if_neg (by decide), ← defaults_spelled]
      have hmerged : (∃ merged, Conninfo.read known (merge ((defaults (statementTimeout ++ readOnlyExtra)).map
            (spelled (isUri url))) url) = some merged ∧ Keeps settings merged [readOnlyOptions]) ↔
          Mergeable (statementTimeout ++ readOnlyExtra) url [readOnlyOptions] settings :=
        merged_iff hknown .readOnly hread
          (fun d hd => List.mem_append_right _ hd) (by decide)
      constructor
      · rintro ⟨merged, hout, hkept, hgiven⟩
        refine hmerged.mp ⟨merged, hout, hkept, fun d hd _ => ?_⟩
        rw [List.mem_singleton.mp hd]
        exact hgiven
      · intro hm
        obtain ⟨merged, hout, hkeeps⟩ := hmerged.mpr hm
        refine ⟨merged, hout, hkeeps.1, ?_⟩
        rcases hm.agrees readOnlyOptions (readOnlyOptions_mem_added hfound hm) with hnone | hsame
        · exact hkeeps.2 readOnlyOptions (List.mem_singleton_self _) hnone
        · exact hkeeps.1 _ _ hsame

theorem libpq_keywords : Libpq isLibpqKeyword := ⟨by decide, by decide⟩

/-- A caller's own timeout, written the way the redaction of the same string reads it. -/
def spacedTimeout : Bytes := ascii "host=h connect_timeout = 10"

theorem spacedTimeout_read : Conninfo.read isLibpqKeyword spacedTimeout =
    some [(ascii "host", ascii "h"), (ascii "connect_timeout", ascii "10")] := by decide

/-- There the caller's timeout is overridden, and the other defaults are given. -/
theorem spacedTimeout_overridden : ¬∀ (url : Bytes) (settings : List Setting),
    Conninfo.read isLibpqKeyword url = some settings →
      DefaultsKept isLibpqKeyword url settings ∧ ReadOnlyKept isLibpqKeyword url settings := by
  intro hclaim
  obtain ⟨merged, hread, hkept, -⟩ := (hclaim _ _ spacedTimeout_read).1
  have hset := hkept (ascii "connect_timeout") (ascii "10") (by decide)
  have hmerged : (Conninfo.read isLibpqKeyword (withDefaults spacedTimeout)).bind
      (effective · (ascii "connect_timeout")) = some (ascii "5") := by decide +kernel
  rw [hread, Option.bind_some, hset] at hmerged
  exact absurd hmerged (by decide)

theorem mergeable_of_uri {options url : Bytes} {required settings : List Setting} (huri : isUri url = true)
    (hagrees : Agrees settings (added options url)) (hcovers : Covers settings (added options url) required)
    (htakes : takesMore url = true) : Mergeable options url required settings := by
  refine ⟨hagrees, hcovers, fun _ _ => htakes, fun key hkey => ?_⟩
  rw [unfinished, if_pos huri] at hkey
  exact absurd hkey (Option.some_ne_none _).symm

/-- A parameter of a query is found and kept. -/
theorem queryTimeout_kept :
    DefaultsKept isLibpqKeyword (ascii "postgres://u@h/db?connect_timeout=10")
        [(ascii "user", ascii "u"), (ascii "host", ascii "h"), (ascii "dbname", ascii "db"),
          (ascii "connect_timeout", ascii "10")] ∧
      ReadOnlyKept isLibpqKeyword (ascii "postgres://u@h/db?connect_timeout=10")
        [(ascii "user", ascii "u"), (ascii "host", ascii "h"), (ascii "dbname", ascii "db"),
          (ascii "connect_timeout", ascii "10")] := by
  have hread : Conninfo.read isLibpqKeyword (ascii "postgres://u@h/db?connect_timeout=10") =
      some [(ascii "user", ascii "u"), (ascii "host", ascii "h"), (ascii "dbname", ascii "db"),
        (ascii "connect_timeout", ascii "10")] := by decide
  obtain ⟨hdefaults, hreadOnly⟩ := defaults_kept_iff isLibpqKeyword libpq_keywords _ _ hread
  constructor
  · refine hdefaults.mpr (mergeable_of_uri (by decide) ?_ ?_ (by decide))
    · unfold Agrees
      decide
    · unfold Covers
      decide
  · refine hreadOnly.mpr ?_
    rw [ReadOnlyMergeable, if_neg (by decide)]
    refine mergeable_of_uri (by decide) ?_ ?_ (by decide)
    · unfold Agrees
      decide
    · unfold Covers
      decide

end MojoHttp.Postgres
