import Mathlib.Data.List.Basic
import Mathlib.Data.List.Induction
import Mathlib.Data.List.TakeWhile

/-!
# Connection strings

The two spellings of a connection string, read one byte at a time: `key = value` pairs between blanks, values bare
or in single quotes, and URIs with a query of parameters. The keywords known are a parameter. A string is a C string:
one with a NUL is not read. Left out: the aliases (`requiressl`, a URI's `ssl=true`) that are recorded as `sslmode`.

* **`read`** — the settings of a string in their order; **`effective`**, the last of a keyword, is the one that counts.
* **`Kv.Closed`**, **`Kv.Unfinished`** — how a list of pairs can end, and what another pair then reads as.
* **`Uri.run_params`** — a parameter behind a query that stands open.
-/

namespace Conninfo

abbrev Text := List UInt8

/-- A keyword and its value. -/
abbrev Setting := Text × Text

abbrev QUOTE : UInt8 := 0x27
abbrev BACKSLASH : UInt8 := 0x5C
abbrev EQUALS : UInt8 := 0x3D
abbrev AMP : UInt8 := 0x26
abbrev QUESTION : UInt8 := 0x3F
abbrev SLASH : UInt8 := 0x2F
abbrev COLON : UInt8 := 0x3A
abbrev COMMA : UInt8 := 0x2C
abbrev AT : UInt8 := 0x40
abbrev OPEN : UInt8 := 0x5B
abbrev CLOSE : UInt8 := 0x5D
abbrev PERCENT : UInt8 := 0x25

/-- C's `isspace`. -/
def isSpace (b : UInt8) : Bool := b == 0x20 || (0x09 ≤ b && b ≤ 0x0D)

/-! ## The value in effect -/

/-- The last occurrence of a keyword wins. -/
def effective (settings : List Setting) (key : Text) : Option Text := settings.reverse.lookup key

@[simp] theorem effective_nil (key : Text) : effective [] key = none := rfl

theorem effective_append (s t : List Setting) (key : Text) :
    effective (s ++ t) key = (effective t key).or (effective s key) := by
  rw [effective, List.reverse_append, List.lookup_append]
  rfl

theorem effective_singleton (k v key : Text) : effective [(k, v)] key = if key = k then some v else none := by
  by_cases h : key = k
  · simp [effective, h]
  · simp [effective, List.lookup_cons, h, beq_eq_false_iff_ne.mpr h]

theorem effective_eq_none_iff {settings : List Setting} {key : Text} :
    effective settings key = none ↔ ∀ s ∈ settings, s.1 ≠ key := by
  induction settings with
  | nil => simp
  | cons s settings ih =>
    rw [← List.singleton_append, effective_append, Option.or_eq_none_iff, ih, effective_singleton,
      List.singleton_append, List.forall_mem_cons]
    constructor
    · rintro ⟨hrest, hs⟩
      refine ⟨fun heq => ?_, hrest⟩
      rw [if_pos heq.symm] at hs
      exact absurd hs (Option.some_ne_none _)
    · rintro ⟨hs, hrest⟩
      exact ⟨hrest, if_neg fun heq => hs heq.symm⟩

/-- With each keyword once, what is listed is in effect. -/
theorem effective_of_mem {settings : List Setting} (hnodup : (settings.map Prod.fst).Nodup) {s : Setting}
    (hs : s ∈ settings) : effective settings s.1 = some s.2 := by
  induction settings with
  | nil => exact absurd hs List.not_mem_nil
  | cons t settings ih =>
    rw [List.map_cons, List.nodup_cons] at hnodup
    rw [← List.singleton_append, effective_append, effective_singleton]
    rcases List.mem_cons.mp hs with rfl | hs
    · have hnone : effective settings s.1 = none := by
        rw [effective_eq_none_iff]
        intro t ht heq
        exact hnodup.1 (heq ▸ List.mem_map_of_mem ht)
      rw [hnone, if_pos rfl]
      rfl
    · rw [ih hnodup.2 hs]
      rfl

/-- The settings `merged` keep every setting of `settings` and give each default that it has not set. -/
def Keeps (settings merged defaults : List Setting) : Prop :=
  (∀ key value, effective settings key = some value → effective merged key = some value) ∧
    ∀ d ∈ defaults, effective settings d.1 = none → effective merged d.1 = some d.2

/-- Where a keyword of `added` is set already, it has the value added. -/
def Agrees (settings added : List Setting) : Prop :=
  ∀ d ∈ added, effective settings d.1 = none ∨ effective settings d.1 = some d.2

/-- A default that is not added is set. -/
def Covers (settings added defaults : List Setting) : Prop :=
  ∀ d ∈ defaults, d ∉ added → effective settings d.1 ≠ none

section Added

variable {settings base added defaults : List Setting}

theorem effective_append_of_mem (hnodup : (added.map Prod.fst).Nodup) {d : Setting} (hd : d ∈ added) :
    effective (base ++ added) d.1 = some d.2 := by
  rw [effective_append, effective_of_mem hnodup hd]
  rfl

theorem effective_append_of_notMem {key : Text} (h : ∀ d ∈ added, d.1 ≠ key) :
    effective (base ++ added) key = effective base key := by
  rw [effective_append, effective_eq_none_iff.mpr h]
  rfl

/-- What is added behind the settings keeps them when it agrees with them and leaves no default out. -/
theorem keeps_append_iff (hnodup : (added.map Prod.fst).Nodup)
    (hone : ∀ d ∈ defaults, ∀ e ∈ added, e.1 = d.1 → e = d) :
    Keeps settings (settings ++ added) defaults ↔ Agrees settings added ∧ Covers settings added defaults := by
  constructor
  · rintro ⟨hkept, hgiven⟩
    refine ⟨fun d hd => ?_, fun d hd hnot hnone => ?_⟩
    · cases hset : effective settings d.1 with
      | none => exact Or.inl rfl
      | some value =>
        have hboth := hkept d.1 value hset
        rw [effective_append_of_mem hnodup hd] at hboth
        exact Or.inr hboth.symm
    · have hsome := hgiven d hd hnone
      rw [effective_append_of_notMem fun e he heq => hnot (hone d hd e he heq ▸ he), hnone] at hsome
      exact absurd hsome (Option.some_ne_none _).symm
  · rintro ⟨hagrees, hcovers⟩
    constructor
    · intro key value hset
      by_cases hkey : ∃ d ∈ added, d.1 = key
      · obtain ⟨d, hd, rfl⟩ := hkey
        rw [effective_append_of_mem hnodup hd]
        rcases hagrees d hd with hnone | hsame
        · rw [hnone] at hset
          exact absurd hset (Option.some_ne_none _).symm
        · rw [← hsame, hset]
      · rw [effective_append_of_notMem fun d hd heq => hkey ⟨d, hd, heq⟩, hset]
    · intro d hd hnone
      by_cases hmem : d ∈ added
      · exact effective_append_of_mem hnodup hmem
      · exact absurd hnone (hcovers d hd hmem)

/-- Where one setting is no longer what it was, it also has to be among what is added. -/
theorem keeps_changed_iff (hnodup : (added.map Prod.fst).Nodup)
    (hone : ∀ d ∈ defaults, ∀ e ∈ added, e.1 = d.1 → e = d) {key value other : Text}
    (hset : effective settings key = some value) (hchanged : effective base key = some other) (hne : other ≠ value)
    (hsame : ∀ k, k ≠ key → effective base k = effective settings k) :
    Keeps settings (base ++ added) defaults ↔
      Agrees settings added ∧ Covers settings added defaults ∧ ∃ d ∈ added, d.1 = key := by
  -- behind a keyword that is added, what the base has of it does not count
  have heffective : (∃ d ∈ added, d.1 = key) →
      ∀ k, effective (base ++ added) k = effective (settings ++ added) k := by
    rintro ⟨e, he, rfl⟩ k
    by_cases hk : k = e.1
    · rw [hk, effective_append_of_mem hnodup he, effective_append_of_mem hnodup he]
    · rw [effective_append, effective_append, hsame k hk]
  constructor
  · intro hkeeps
    have hmem : ∃ d ∈ added, d.1 = key := by
      by_contra hnot
      have hkept := hkeeps.1 key value hset
      rw [effective_append_of_notMem fun d hd heq => hnot ⟨d, hd, heq⟩, hchanged] at hkept
      exact hne (Option.some.inj hkept)
    have hboth : Keeps settings (settings ++ added) defaults := by
      simp only [Keeps, ← heffective hmem]
      exact hkeeps
    obtain ⟨hagrees, hcovers⟩ := (keeps_append_iff hnodup hone).mp hboth
    exact ⟨hagrees, hcovers, hmem⟩
  · rintro ⟨hagrees, hcovers, hmem⟩
    have hboth : Keeps settings (settings ++ added) defaults :=
      (keeps_append_iff hnodup hone).mpr ⟨hagrees, hcovers⟩
    simp only [Keeps, heffective hmem]
    exact hboth

end Added

/-! ## Pairs between blanks -/

namespace Kv

/-- Where the reader stands, and what it has of the pair. -/
inductive Place
  | between
  | name (key : Text)
  | afterName (key : Text)
  | beforeValue (key : Text)
  | bare (key value : Text)
  | bareEscape (key value : Text)
  | quoted (key value : Text)
  | quotedEscape (key value : Text)
  deriving Repr, DecidableEq

abbrev State := List Setting × Place

def step (s : State) (b : UInt8) : Option State :=
  if b = 0 then none
  else
    match s with
    | (done, .between) =>
      if isSpace b then some (done, .between)
      else if b = EQUALS then some (done, .beforeValue [])
      else some (done, .name [b])
    | (done, .name key) =>
      if b = EQUALS then some (done, .beforeValue key)
      else if isSpace b then some (done, .afterName key)
      else some (done, .name (key ++ [b]))
    | (done, .afterName key) =>
      if isSpace b then some (done, .afterName key)
      else if b = EQUALS then some (done, .beforeValue key)
      else none
    | (done, .beforeValue key) =>
      if isSpace b then some (done, .beforeValue key)
      else if b = QUOTE then some (done, .quoted key [])
      else if b = BACKSLASH then some (done, .bareEscape key [])
      else some (done, .bare key [b])
    | (done, .bare key value) =>
      if isSpace b then some (done ++ [(key, value)], .between)
      else if b = BACKSLASH then some (done, .bareEscape key value)
      else some (done, .bare key (value ++ [b]))
    | (done, .bareEscape key value) => some (done, .bare key (value ++ [b]))
    | (done, .quoted key value) =>
      if b = BACKSLASH then some (done, .quotedEscape key value)
      else if b = QUOTE then some (done ++ [(key, value)], .between)
      else some (done, .quoted key (value ++ [b]))
    | (done, .quotedEscape key value) => some (done, .quoted key (value ++ [b]))

def run (s : State) (text : Text) : Option State := text.foldlM step s

/-- What the end of the string makes of a state: a name without a value and an open quote are refused. -/
def finish : State → Option (List Setting)
  | (done, .between) => some done
  | (done, .beforeValue key) => some (done ++ [(key, [])])
  | (done, .bare key value) => some (done ++ [(key, value)])
  | (done, .bareEscape key value) => some (done ++ [(key, value)])
  | _ => none

def start : State := ([], .between)

/-- The pairs of a string. -/
def pairs (text : Text) : Option (List Setting) := (run start text).bind finish

theorem run_append (s : State) (t u : Text) : run s (t ++ u) = (run s t).bind (run · u) := List.foldlM_append

theorem run_trans {s s' : State} {t : Text} (h : run s t = some s') (u : Text) : run s (t ++ u) = run s' u := by
  rw [run_append, h]
  rfl

theorem run_cons (s : State) (b : UInt8) (t : Text) : run s (b :: t) = (step s b).bind (run · t) := List.foldlM_cons

/-- The bytes a bare word goes on with, in a name (`false`) and in a value (`true`). -/
def isWord (value : Bool) (b : UInt8) : Bool :=
  b != 0 && !isSpace b && (if value then b != BACKSLASH else b != EQUALS)

theorem run_name {done : List Setting} {key word : Text} (h : ∀ b ∈ word, isWord false b = true) :
    run (done, .name key) word = some (done, .name (key ++ word)) := by
  induction word generalizing key with
  | nil =>
    rw [List.append_nil]
    rfl
  | cons b word ih =>
    have hb := h b List.mem_cons_self
    simp only [isWord, Bool.and_eq_true, bne_iff_ne, Bool.not_eq_true', Bool.false_eq_true, if_false] at hb
    have hstep : step (done, .name key) b = some (done, .name (key ++ [b])) := by
      simp [step, hb.1.1, hb.1.2, hb.2]
    rw [run_cons, hstep, Option.bind_some, ih fun c hc => h c (List.mem_cons_of_mem _ hc), List.append_assoc,
      List.singleton_append]

theorem run_bare {done : List Setting} {key value word : Text} (h : ∀ b ∈ word, isWord true b = true) :
    run (done, .bare key value) word = some (done, .bare key (value ++ word)) := by
  induction word generalizing value with
  | nil =>
    rw [List.append_nil]
    rfl
  | cons b word ih =>
    have hb := h b List.mem_cons_self
    simp only [isWord, Bool.and_eq_true, bne_iff_ne, Bool.not_eq_true', if_true] at hb
    have hstep : step (done, .bare key value) b = some (done, .bare key (value ++ [b])) := by
      simp [step, hb.1.1, hb.1.2, hb.2]
    rw [run_cons, hstep, Option.bind_some, ih fun c hc => h c (List.mem_cons_of_mem _ hc), List.append_assoc,
      List.singleton_append]

theorem run_quoted {done : List Setting} {key value word : Text}
    (h : ∀ b ∈ word, b ≠ 0 ∧ b ≠ BACKSLASH ∧ b ≠ QUOTE) :
    run (done, .quoted key value) word = some (done, .quoted key (value ++ word)) := by
  induction word generalizing value with
  | nil =>
    rw [List.append_nil]
    rfl
  | cons b word ih =>
    obtain ⟨hzero, hescape, hquote⟩ := h b List.mem_cons_self
    have hstep : step (done, .quoted key value) b = some (done, .quoted key (value ++ [b])) := by
      simp [step, hzero, hescape, hquote]
    rw [run_cons, hstep, Option.bind_some, ih fun c hc => h c (List.mem_cons_of_mem _ hc), List.append_assoc,
      List.singleton_append]

/-- A name that stands as it is: its bytes go on with a name, and it has one. -/
def IsName (key : Text) : Prop := key ≠ [] ∧ ∀ b ∈ key, isWord false b = true

/-- What a value can be spelled as without an escape. -/
inductive Spells : (text value : Text) → Prop
  | bare {b : UInt8} {word : Text} (hquote : b ≠ QUOTE) (h : ∀ c ∈ b :: word, isWord true c = true) :
      Spells (b :: word) (b :: word)
  | quoted {word : Text} (h : ∀ b ∈ word, b ≠ 0 ∧ b ≠ BACKSLASH ∧ b ≠ QUOTE) :
      Spells (QUOTE :: word ++ [QUOTE]) word

/-- The state has the settings `s` whatever blank comes next. -/
inductive Closed : State → List Setting → Prop
  | between (done : List Setting) : Closed (done, .between) done
  | bare (done : List Setting) (key value : Text) : Closed (done, .bare key value) (done ++ [(key, value)])

/-- The state is within a value that the blank in front of another pair does not end. -/
inductive Unfinished : State → List Setting → Text → Text → Prop
  | empty (done : List Setting) (key : Text) : Unfinished (done, .beforeValue key) done key []
  | escape (done : List Setting) (key value : Text) : Unfinished (done, .bareEscape key value) done key value

/-- A string that is read ends in one of the two. -/
theorem closed_or_unfinished {s : State} {settings : List Setting} (h : finish s = some settings) :
    Closed s settings ∨ ∃ done key value, Unfinished s done key value ∧ settings = done ++ [(key, value)] := by
  obtain ⟨done, place⟩ := s
  cases place with
  | between =>
    obtain rfl : done = settings := by simpa [finish] using h
    exact Or.inl (.between _)
  | beforeValue key => exact Or.inr ⟨done, key, [], .empty _ _, by simpa [finish] using h.symm⟩
  | bare key value =>
    obtain rfl : done ++ [(key, value)] = settings := by simpa [finish] using h
    exact Or.inl (.bare _ _ _)
  | bareEscape key value => exact Or.inr ⟨done, key, value, .escape _ _ _, by simpa [finish] using h.symm⟩
  | name key => simp [finish] at h
  | afterName key => simp [finish] at h
  | quoted key value => simp [finish] at h
  | quotedEscape key value => simp [finish] at h

theorem Closed.finish_eq {s : State} {settings : List Setting} (h : Closed s settings) :
    finish s = some settings := by
  cases h <;> rfl

theorem Closed.blank {s : State} {settings : List Setting} (h : Closed s settings) :
    step s 0x20 = some (settings, .between) := by
  cases h <;> rfl

theorem run_isName {done : List Setting} {key : Text} (h : IsName key) :
    run (done, .between) (key ++ [EQUALS]) = some (done, .beforeValue key) := by
  obtain ⟨hne, hword⟩ := h
  obtain ⟨b, word, rfl⟩ := List.exists_cons_of_ne_nil hne
  have hb := hword b List.mem_cons_self
  simp only [isWord, Bool.and_eq_true, bne_iff_ne, Bool.not_eq_true', Bool.false_eq_true, if_false] at hb
  have hstep : step (done, .between) b = some (done, .name [b]) := by simp [step, hb.1.1, hb.1.2, hb.2]
  rw [List.cons_append, run_cons, hstep, Option.bind_some,
    run_trans (run_name fun c hc => hword c (List.mem_cons_of_mem _ hc))]
  rfl

theorem run_spells {done : List Setting} {key text value : Text} (h : Spells text value) :
    ∃ s, run (done, .beforeValue key) text = some s ∧ Closed s (done ++ [(key, value)]) := by
  cases h with
  | @bare b word hquote hword =>
    have hb := hword b List.mem_cons_self
    simp only [isWord, Bool.and_eq_true, bne_iff_ne, Bool.not_eq_true', if_true] at hb
    have hstep : step (done, .beforeValue key) b = some (done, .bare key [b]) := by
      simp [step, hb.1.1, hb.1.2, hb.2, hquote]
    refine ⟨_, ?_, Closed.bare done key (b :: word)⟩
    rw [run_cons, hstep, Option.bind_some, run_bare fun c hc => hword c (List.mem_cons_of_mem _ hc),
      List.singleton_append]
  | quoted hword =>
    refine ⟨_, ?_, Closed.between _⟩
    have hopen : step (done, .beforeValue key) QUOTE = some (done, .quoted key []) := rfl
    rw [List.cons_append, run_cons, hopen, Option.bind_some, run_trans (run_quoted hword), List.nil_append]
    rfl

/-- A pair behind a blank. -/
theorem Closed.run_pair {s : State} {settings : List Setting} (hs : Closed s settings) {key text value : Text}
    (hkey : IsName key) (htext : Spells text value) :
    ∃ s', run s (0x20 :: key ++ EQUALS :: text) = some s' ∧ Closed s' (settings ++ [(key, value)]) := by
  obtain ⟨s', hrun, hclosed⟩ : ∃ s', run (settings, .beforeValue key) text = some s' ∧
      Closed s' (settings ++ [(key, value)]) := run_spells htext
  refine ⟨s', ?_, hclosed⟩
  rw [List.cons_append, run_cons, hs.blank, Option.bind_some,
    show key ++ EQUALS :: text = (key ++ [EQUALS]) ++ text from by simp, run_trans (run_isName hkey), hrun]

/-- Behind an unfinished value, a blank and a word with no blank go into that value. -/
theorem Unfinished.run_word {s : State} {done : List Setting} {key value : Text} (hs : Unfinished s done key value)
    {b : UInt8} {word : Text} (hquote : b ≠ QUOTE) (hword : ∀ c ∈ b :: word, isWord true c = true) :
    ∃ more, more ≠ [] ∧ run s (0x20 :: b :: word) = some (done, .bare key (value ++ more)) := by
  cases hs with
  | empty =>
    refine ⟨b :: word, List.cons_ne_nil _ _, ?_⟩
    have hb := hword b List.mem_cons_self
    simp only [isWord, Bool.and_eq_true, bne_iff_ne, Bool.not_eq_true', if_true] at hb
    have hblank : step (done, .beforeValue key) 0x20 = some (done, .beforeValue key) := rfl
    have hstep : step (done, .beforeValue key) b = some (done, .bare key [b]) := by
      simp [step, hb.1.1, hb.1.2, hb.2, hquote]
    rw [run_cons, hblank, Option.bind_some, run_cons, hstep, Option.bind_some,
      run_bare fun c hc => hword c (List.mem_cons_of_mem _ hc)]
    rfl
  | escape =>
    refine ⟨0x20 :: b :: word, List.cons_ne_nil _ _, ?_⟩
    have hblank : step (done, .bareEscape key value) 0x20 = some (done, .bare key (value ++ [0x20])) := rfl
    rw [run_cons, hblank, Option.bind_some, run_bare hword, List.append_assoc, List.singleton_append]

end Kv

/-! ## Percent-encoding -/

def hexValue (b : UInt8) : Option Nat :=
  if 0x30 ≤ b && b ≤ 0x39 then some (b.toNat - 0x30)
  else if 0x61 ≤ b && b ≤ 0x66 then some (b.toNat - 0x61 + 10)
  else if 0x41 ≤ b && b ≤ 0x46 then some (b.toNat - 0x41 + 10)
  else none

/-- The byte of two hex digits; the NUL is refused. -/
def escaped (high low : UInt8) : Option UInt8 :=
  match hexValue high, hexValue low with
  | some h, some l => if h * 16 + l = 0 then none else some (UInt8.ofNat (h * 16 + l))
  | _, _ => none

def percentDecode : Text → Option Text
  | [] => some []
  | [b] => if b = PERCENT then none else some [b]
  | [b, c] => if b = PERCENT then none else (percentDecode [c]).map (b :: ·)
  | b :: high :: low :: rest =>
    if b = PERCENT then (escaped high low).bind fun c => (percentDecode rest).map (c :: ·)
    else (percentDecode (high :: low :: rest)).map (b :: ·)

theorem percentDecode_cons {b : UInt8} (hb : b ≠ PERCENT) (rest : Text) :
    percentDecode (b :: rest) = (percentDecode rest).map (b :: ·) := by
  cases rest with
  | nil => simp [percentDecode, hb]
  | cons c rest =>
    cases rest with
    | nil => simp [percentDecode, hb]
    | cons d rest => rw [percentDecode, if_neg hb]

theorem percentDecode_append {t d : Text} (h : percentDecode t = some d) (u : Text) :
    percentDecode (t ++ u) = (percentDecode u).map (d ++ ·) := by
  induction t using percentDecode.induct generalizing d with
  | case1 =>
    obtain rfl : [] = d := by simpa [percentDecode] using h
    cases hu : percentDecode u <;> simp [hu]
  | case2 => simp [percentDecode] at h
  | case3 b hb =>
    obtain rfl : [b] = d := by simpa [percentDecode, hb] using h
    rw [List.singleton_append, percentDecode_cons hb]
    rfl
  | case4 => simp [percentDecode] at h
  | case5 b c hb ih =>
    rw [percentDecode_cons hb] at h
    obtain ⟨e, he, rfl⟩ := Option.map_eq_some_iff.mp h
    rw [List.cons_append, percentDecode_cons hb, ih he, Option.map_map]
    rfl
  | case6 high low rest ih =>
    rw [percentDecode, if_pos rfl] at h
    obtain ⟨c, hc, h⟩ := Option.bind_eq_some_iff.mp h
    obtain ⟨e, he, rfl⟩ := Option.map_eq_some_iff.mp h
    rw [List.cons_append, List.cons_append, List.cons_append, percentDecode, if_pos rfl, hc, Option.bind_some, ih he,
      Option.map_map]
    rfl
  | case7 b high low rest hb ih =>
    rw [percentDecode_cons hb] at h
    obtain ⟨e, he, rfl⟩ := Option.map_eq_some_iff.mp h
    rw [List.cons_append, percentDecode_cons hb, ih he, Option.map_map]
    rfl

/-! ## URIs -/

namespace Uri

/-- `postgresql://`. -/
def longScheme : Text := [0x70, 0x6F, 0x73, 0x74, 0x67, 0x72, 0x65, 0x73, 0x71, 0x6C, COLON, SLASH, SLASH]

/-- `postgres://`. -/
def shortScheme : Text := [0x70, 0x6F, 0x73, 0x74, 0x67, 0x72, 0x65, 0x73, COLON, SLASH, SLASH]

/-- What follows the scheme of a URI. -/
def behindScheme (text : Text) : Option Text :=
  if longScheme.isPrefixOf text then some (text.drop longScheme.length)
  else if shortScheme.isPrefixOf text then some (text.drop shortScheme.length)
  else none

def user : Text := [0x75, 0x73, 0x65, 0x72]
def password : Text := [0x70, 0x61, 0x73, 0x73, 0x77, 0x6F, 0x72, 0x64]
def host : Text := [0x68, 0x6F, 0x73, 0x74]
def port : Text := [0x70, 0x6F, 0x72, 0x74]
def dbname : Text := [0x64, 0x62, 0x6E, 0x61, 0x6D, 0x65]

/-- The keywords a URI has a place for in front of its query. -/
def placed : List Text := [user, password, host, port, dbname]

/-- A part of the URI is a setting when there is something of it. -/
def given (key value : Text) : List Setting := if value = [] then [] else [(key, value)]

/-- The userinfo, when an `@` comes in front of any `/`, and what is behind it. -/
def userinfo (text : Text) : List Setting × Text :=
  let front := text.takeWhile fun b => b != AT && b != SLASH
  match text.dropWhile fun b => b != AT && b != SLASH with
  | [] => ([], text)
  | b :: rest =>
    if b = AT then
      (given user (front.takeWhile (· != COLON)) ++ given password ((front.dropWhile (· != COLON)).drop 1), rest)
    else ([], text)

inductive Netloc
  | start
  | host
  | v6 (nonempty : Bool)
  | afterV6
  | port
  deriving Repr, DecidableEq

/-- Where the reader stands behind the userinfo, and what it has of the part it is in. -/
inductive Place
  | netloc (within : Netloc) (hosts ports : Text)
  | dbname (name : Text)
  | key (key : Text)
  | value (key value : Text)
  deriving Repr, DecidableEq

abbrev State := List Setting × Place

/-- Hosts and ports are one setting each, the list of them separated by commas. -/
def leave (done : List Setting) (hosts ports : Text) : List Setting := done ++ given host hosts ++ given port ports

/-- What may end a host, or what `other` makes of the byte. -/
def endOfHost (done : List Setting) (hosts ports : Text) (b : UInt8) (other : Option State) : Option State :=
  if b = COLON then some (done, .netloc .port hosts ports)
  else if b = COMMA then some (done, .netloc .start (hosts ++ [b]) (ports ++ [b]))
  else if b = SLASH then some (leave done hosts ports, .dbname [])
  else if b = QUESTION then some (leave done hosts ports, .key [])
  else other

def stepNetloc (done : List Setting) (hosts ports : Text) (b : UInt8) : Netloc → Option State
  | .start =>
    if b = OPEN then some (done, .netloc (.v6 false) hosts ports)
    else endOfHost done hosts ports b (some (done, .netloc .host (hosts ++ [b]) ports))
  | .host => endOfHost done hosts ports b (some (done, .netloc .host (hosts ++ [b]) ports))
  | .v6 nonempty =>
    if b = CLOSE then if nonempty then some (done, .netloc .afterV6 hosts ports) else none
    else some (done, .netloc (.v6 true) (hosts ++ [b]) ports)
  | .afterV6 => endOfHost done hosts ports b none
  | .port =>
    if b = COLON then some (done, .netloc .port hosts (ports ++ [b]))
    else endOfHost done hosts ports b (some (done, .netloc .port hosts (ports ++ [b])))

def step (s : State) (b : UInt8) : Option State :=
  if b = 0 then none
  else
    match s with
    | (done, .netloc within hosts ports) => stepNetloc done hosts ports b within
    | (done, .dbname name) =>
      if b = QUESTION then some (done ++ given dbname name, .key []) else some (done, .dbname (name ++ [b]))
    | (done, .key key) =>
      if b = EQUALS then some (done, .value key [])
      else if b = AMP then none
      else some (done, .key (key ++ [b]))
    | (done, .value key value) =>
      if b = EQUALS then none
      else if b = AMP then some (done ++ [(key, value)], .key [])
      else some (done, .value key (value ++ [b]))

def run (s : State) (text : Text) : Option State := text.foldlM step s

def finish : State → Option (List Setting)
  | (_, .netloc (.v6 _) _ _) => none
  | (done, .netloc _ hosts ports) => some (leave done hosts ports)
  | (done, .dbname name) => some (done ++ given dbname name)
  | (done, .key key) => if key = [] then some done else none
  | (done, .value key value) => some (done ++ [(key, value)])

/-- Where the reader stands at the end of what follows the scheme; the userinfo is looked for first. -/
def endState (text : Text) : Option State :=
  if 0 ∈ text then none
  else run ((userinfo text).1, .netloc .start [] []) (userinfo text).2

/-- The parts and parameters of a URI as they are spelled. -/
def parts (text : Text) : Option (List Setting) := (endState text).bind finish

theorem run_append (s : State) (t u : Text) : run s (t ++ u) = (run s t).bind (run · u) := List.foldlM_append

theorem run_trans {s s' : State} {t : Text} (h : run s t = some s') (u : Text) : run s (t ++ u) = run s' u := by
  rw [run_append, h]
  rfl

theorem run_cons (s : State) (b : UInt8) (t : Text) : run s (b :: t) = (step s b).bind (run · t) := List.foldlM_cons

theorem userinfo_append {u : Text} (h : ∀ b ∈ u, b ≠ AT ∧ b ≠ SLASH) (t : Text) :
    userinfo (t ++ u) = ((userinfo t).1, (userinfo t).2 ++ u) := by
  have hu : ∀ b ∈ u, (b != AT && b != SLASH) = true := by
    intro b hb
    simp [h b hb]
  cases hd : t.dropWhile (fun b => b != AT && b != SLASH) with
  | nil =>
    rw [List.dropWhile_eq_nil_iff] at hd
    have hall : (t ++ u).dropWhile (fun b => b != AT && b != SLASH) = [] := by
      rw [List.dropWhile_eq_nil_iff]
      intro b hb
      exact (List.mem_append.mp hb).elim (hd b) (hu b)
    simp only [userinfo, hall, List.dropWhile_eq_nil_iff.mpr hd]
  | cons b rest =>
    have hsplit : t = t.takeWhile (fun b => b != AT && b != SLASH) ++ b :: rest := by
      rw [← hd, List.takeWhile_append_dropWhile]
    have hdrop : (t ++ u).dropWhile (fun b => b != AT && b != SLASH) = b :: (rest ++ u) := by
      rw [List.dropWhile_append, hd]
      simp
    have htake : (t ++ u).takeWhile (fun b => b != AT && b != SLASH) =
        t.takeWhile fun b => b != AT && b != SLASH := by
      rw [List.takeWhile_append]
      have hlen : (t.takeWhile fun b => b != AT && b != SLASH).length ≠ t.length := by
        intro hlen
        have := congrArg List.length hsplit
        rw [List.length_append, List.length_cons] at this
        omega
      rw [if_neg hlen]
    simp only [userinfo, hdrop, htake, hd]
    split <;> rfl

/-- The bytes that change nothing in front of them: no NUL, and none that ends a userinfo. -/
theorem endState_append {u : Text} (h : ∀ b ∈ u, b ≠ 0 ∧ b ≠ AT ∧ b ≠ SLASH) (t : Text) :
    endState (t ++ u) = (endState t).bind (run · u) := by
  have hzero : 0 ∈ t ++ u ↔ 0 ∈ t := by
    rw [List.mem_append]
    exact or_iff_left fun hu => (h 0 hu).1 rfl
  unfold endState
  rw [userinfo_append fun b hb => (h b hb).2]
  by_cases ht : 0 ∈ t
  · rw [if_pos (hzero.mpr ht), if_pos ht]
    rfl
  · rw [if_neg fun h => ht (hzero.mp h), if_neg ht, run_append]

/-! ### In front of the query -/

/-- The reader has come to no query. -/
inductive Outside : State → Prop
  | netloc {done : List Setting} (h : ∀ s ∈ done, s.1 ∈ placed) (within : Netloc) (hosts ports : Text) :
      Outside (done, .netloc within hosts ports)
  | dbname {done : List Setting} (h : ∀ s ∈ done, s.1 ∈ placed) (name : Text) : Outside (done, .dbname name)

theorem given_placed {key : Text} (h : key ∈ placed) (value : Text) : ∀ s ∈ given key value, s.1 ∈ placed := by
  intro s hs
  unfold given at hs
  split at hs
  · exact absurd hs List.not_mem_nil
  · rw [List.mem_singleton.mp hs]
    exact h

theorem leave_placed {done : List Setting} (h : ∀ s ∈ done, s.1 ∈ placed) (hosts ports : Text) :
    ∀ s ∈ leave done hosts ports, s.1 ∈ placed := by
  intro s hs
  rcases List.mem_append.mp hs with hs | hs
  · rcases List.mem_append.mp hs with hs | hs
    · exact h s hs
    · exact given_placed (by decide) hosts s hs
  · exact given_placed (by decide) ports s hs

theorem userinfo_placed (text : Text) : ∀ s ∈ (userinfo text).1, s.1 ∈ placed := by
  intro s hs
  unfold userinfo at hs
  dsimp only at hs
  split at hs
  · exact absurd hs List.not_mem_nil
  · split at hs
    · rcases List.mem_append.mp hs with hs | hs
      · exact given_placed (by decide) _ s hs
      · exact given_placed (by decide) _ s hs
    · exact absurd hs List.not_mem_nil

theorem Outside.finish_placed {s : State} {settings : List Setting} (hs : Outside s) (h : finish s = some settings) :
    ∀ p ∈ settings, p.1 ∈ placed := by
  cases hs with
  | netloc hdone within hosts ports =>
    cases within with
    | v6 nonempty => exact absurd h (Option.some_ne_none _).symm
    | start => exact Option.some.inj h ▸ leave_placed hdone hosts ports
    | host => exact Option.some.inj h ▸ leave_placed hdone hosts ports
    | afterV6 => exact Option.some.inj h ▸ leave_placed hdone hosts ports
    | port => exact Option.some.inj h ▸ leave_placed hdone hosts ports
  | dbname hdone name =>
    intro p hp
    rw [← Option.some.inj h] at hp
    exact (List.mem_append.mp hp).elim (hdone p) (given_placed (by decide) name p)

theorem endOfHost_outside {done : List Setting} (hdone : ∀ s ∈ done, s.1 ∈ placed) {hosts ports : Text} {b : UInt8}
    (hb : b ≠ QUESTION) {other : Option State} (hother : ∀ s, other = some s → Outside s) {s : State}
    (h : endOfHost done hosts ports b other = some s) : Outside s := by
  unfold endOfHost at h
  rw [if_neg hb] at h
  split at h
  · exact Option.some.inj h ▸ .netloc hdone _ _ _
  · split at h
    · exact Option.some.inj h ▸ .netloc hdone _ _ _
    · split at h
      · exact Option.some.inj h ▸ .dbname (leave_placed hdone _ _) _
      · exact hother s h

theorem Outside.step {s s' : State} (hs : Outside s) {b : UInt8} (hb : b ≠ QUESTION) (h : step s b = some s') :
    Outside s' := by
  unfold Uri.step at h
  by_cases hzero : b = 0
  · simp [hzero] at h
  · rw [if_neg hzero] at h
    cases hs with
    | dbname hdone name =>
      simp only [if_neg hb, Option.some.injEq] at h
      exact h ▸ .dbname hdone _
    | netloc hdone within hosts ports =>
      have hnext : ∀ (within : Netloc) (hosts ports : Text), ∀ s, some (_, Place.netloc within hosts ports) = some s →
          Outside s := fun within hosts ports s heq => Option.some.inj heq ▸ .netloc hdone within hosts ports
      cases within with
      | start =>
        simp only [stepNetloc] at h
        split at h
        · exact hnext _ _ _ _ h
        · exact endOfHost_outside hdone hb (hnext _ _ _) h
      | host => exact endOfHost_outside hdone hb (hnext _ _ _) h
      | v6 nonempty =>
        simp only [stepNetloc] at h
        split at h
        · split at h
          · exact hnext _ _ _ _ h
          · exact absurd h (Option.some_ne_none _).symm
        · exact hnext _ _ _ _ h
      | afterV6 => exact endOfHost_outside hdone hb (fun s heq => absurd heq (Option.some_ne_none _).symm) h
      | port =>
        simp only [stepNetloc] at h
        split at h
        · exact hnext _ _ _ _ h
        · exact endOfHost_outside hdone hb (hnext _ _ _) h

theorem Outside.run {s s' : State} (hs : Outside s) {t : Text} (ht : QUESTION ∉ t) (h : run s t = some s') :
    Outside s' := by
  induction t generalizing s with
  | nil => exact Option.some.inj h ▸ hs
  | cons b t ih =>
    rw [List.mem_cons, not_or] at ht
    rw [run_cons] at h
    obtain ⟨next, hnext, h⟩ := Option.bind_eq_some_iff.mp h
    exact ih (hs.step (Ne.symm ht.1) hnext) ht.2 h

/-- A `?` behind a string that is read opens a query. -/
theorem Outside.question {s : State} (hs : Outside s) {settings : List Setting} (h : finish s = some settings) :
    Uri.step s QUESTION = some (settings, .key []) := by
  cases hs with
  | dbname hdone name =>
    rw [← Option.some.inj h]
    rfl
  | netloc hdone within hosts ports =>
    cases within with
    | v6 nonempty => exact absurd h (Option.some_ne_none _).symm
    | start => rw [← Option.some.inj h]; rfl
    | host => rw [← Option.some.inj h]; rfl
    | afterV6 => rw [← Option.some.inj h]; rfl
    | port => rw [← Option.some.inj h]; rfl

theorem Outside.step_question {s s' : State} (hs : Outside s) (h : Uri.step s QUESTION = some s') :
    Outside s' ∨ ∃ settings, s' = (settings, .key []) := by
  cases hs with
  | dbname hdone name => exact Or.inr ⟨_, (Option.some.inj h).symm⟩
  | netloc hdone within hosts ports =>
    cases within with
    | v6 nonempty =>
      obtain rfl := Option.some.inj h
      exact Or.inl (.netloc hdone _ _ _)
    | start => exact Or.inr ⟨_, (Option.some.inj h).symm⟩
    | host => exact Or.inr ⟨_, (Option.some.inj h).symm⟩
    | afterV6 => exact Or.inr ⟨_, (Option.some.inj h).symm⟩
    | port => exact Or.inr ⟨_, (Option.some.inj h).symm⟩

/-- A part of the URI in front of the query that ends in `last` and can go on with more of it. -/
inductive Grows : State → List Setting → Setting → List Setting → Prop
  | host {done : List Setting} {hosts ports : Text} (h : hosts ≠ []) :
      Grows (done, .netloc .host hosts ports) done (Uri.host, hosts) (given Uri.port ports)
  | port {done : List Setting} {hosts ports : Text} (h : ports ≠ []) :
      Grows (done, .netloc .port hosts ports) (done ++ given Uri.host hosts) (Uri.port, ports) []
  | dbname {done : List Setting} {name : Text} (h : name ≠ []) : Grows (done, .dbname name) done (Uri.dbname, name) []

theorem Grows.finish_eq {s : State} {front rest : List Setting} {last : Setting} (h : Grows s front last rest) :
    finish s = some (front ++ last :: rest) := by
  cases h with
  | host h => simp [finish, leave, given, h]
  | port h => simp [finish, leave, given, h]
  | dbname h => simp [finish, given, h]

theorem Grows.key_notMem {s : State} {front rest : List Setting} {last : Setting} (h : Grows s front last rest) :
    ∀ p ∈ rest, p.1 ≠ last.1 := by
  cases h with
  | host h =>
    intro p hp
    unfold given at hp
    split at hp
    · exact absurd hp List.not_mem_nil
    · rw [List.mem_singleton.mp hp]
      exact (by decide : Uri.port ≠ Uri.host)
  | port h => exact fun p hp => absurd hp List.not_mem_nil
  | dbname h => exact fun p hp => absurd hp List.not_mem_nil

theorem Grows.placed {s : State} {front rest : List Setting} {last : Setting} (h : Grows s front last rest) :
    last.1 ∈ Uri.placed := by
  cases h with
  | host h => exact (by decide : Uri.host ∈ Uri.placed)
  | port h => exact (by decide : Uri.port ∈ Uri.placed)
  | dbname h => exact (by decide : Uri.dbname ∈ Uri.placed)

/-- A byte that ends no part of a URI. -/
def isInner (b : UInt8) : Bool :=
  b != 0 && b != COLON && b != COMMA && b != SLASH && b != QUESTION && b != OPEN && b != CLOSE && b != AT

theorem endOfHost_inner {done : List Setting} {hosts ports : Text} {b : UInt8} (hb : isInner b = true)
    (other : Option State) : endOfHost done hosts ports b other = other := by
  simp only [isInner, Bool.and_eq_true, bne_iff_ne] at hb
  simp [endOfHost, hb]

theorem Grows.run_inner {s : State} {front rest : List Setting} {key value : Text}
    (h : Grows s front (key, value) rest) {t : Text} (ht : ∀ b ∈ t, isInner b = true) :
    ∃ s', run s t = some s' ∧ Grows s' front (key, value ++ t) rest := by
  induction t generalizing s value with
  | nil => exact ⟨s, rfl, by rwa [List.append_nil]⟩
  | cons b t ih =>
    have hb := ht b List.mem_cons_self
    have hbytes := hb
    simp only [isInner, Bool.and_eq_true, bne_iff_ne] at hbytes
    have hstep : ∃ s', step s b = some s' ∧ Grows s' front (key, value ++ [b]) rest := by
      cases h with
      | host h =>
        exact ⟨_, by simp [step, hbytes, stepNetloc, endOfHost_inner hb], .host (by simp)⟩
      | port h =>
        exact ⟨_, by simp [step, hbytes, stepNetloc, endOfHost_inner hb], .port (by simp)⟩
      | dbname h => exact ⟨_, by simp [step, hbytes], .dbname (by simp)⟩
    obtain ⟨next, hnext, hgrows⟩ := hstep
    obtain ⟨s', hrun, hgrows⟩ := ih hgrows fun c hc => ht c (List.mem_cons_of_mem _ hc)
    refine ⟨s', ?_, by rwa [List.append_assoc, List.singleton_append] at hgrows⟩
    rw [run_cons, hnext, Option.bind_some, hrun]

/-- Behind an `&` that is no separator, a string that is read can go on with the part it ends in. -/
theorem Outside.grows {s s' : State} (hs : Outside s) (h : Uri.step s AMP = some s') {settings : List Setting}
    (hfinish : finish s' = some settings) : ∃ front last rest, Grows s' front last rest := by
  cases hs with
  | dbname hdone name =>
    obtain rfl := Option.some.inj h
    exact ⟨_, _, _, .dbname (by simp)⟩
  | netloc hdone within hosts ports =>
    cases within with
    | start =>
      obtain rfl := Option.some.inj h
      exact ⟨_, _, _, .host (by simp)⟩
    | host =>
      obtain rfl := Option.some.inj h
      exact ⟨_, _, _, .host (by simp)⟩
    | v6 nonempty =>
      obtain rfl := Option.some.inj h
      exact absurd hfinish (Option.some_ne_none _).symm
    | afterV6 => exact absurd h (Option.some_ne_none _).symm
    | port =>
      obtain rfl := Option.some.inj h
      exact ⟨_, _, _, .port (by simp)⟩

/-! ### In the query -/

/-- A byte of a parameter that stands as it is. -/
def isParam (b : UInt8) : Bool := b != 0 && b != EQUALS && b != AMP

theorem run_key {done : List Setting} {key word : Text} (h : ∀ b ∈ word, isParam b = true) :
    run (done, .key key) word = some (done, .key (key ++ word)) := by
  induction word generalizing key with
  | nil =>
    rw [List.append_nil]
    rfl
  | cons b word ih =>
    have hb := h b List.mem_cons_self
    simp only [isParam, Bool.and_eq_true, bne_iff_ne] at hb
    have hstep : step (done, .key key) b = some (done, .key (key ++ [b])) := by simp [step, hb]
    rw [run_cons, hstep, Option.bind_some, ih fun c hc => h c (List.mem_cons_of_mem _ hc), List.append_assoc,
      List.singleton_append]

theorem run_value {done : List Setting} {key value word : Text} (h : ∀ b ∈ word, isParam b = true) :
    run (done, .value key value) word = some (done, .value key (value ++ word)) := by
  induction word generalizing value with
  | nil =>
    rw [List.append_nil]
    rfl
  | cons b word ih =>
    have hb := h b List.mem_cons_self
    simp only [isParam, Bool.and_eq_true, bne_iff_ne] at hb
    have hstep : step (done, .value key value) b = some (done, .value key (value ++ [b])) := by simp [step, hb]
    rw [run_cons, hstep, Option.bind_some, ih fun c hc => h c (List.mem_cons_of_mem _ hc), List.append_assoc,
      List.singleton_append]

/-- A parameter where one may begin. -/
theorem run_param {done : List Setting} {key value : Text} (hkey : ∀ b ∈ key, isParam b = true)
    (hvalue : ∀ b ∈ value, isParam b = true) :
    run (done, .key []) (key ++ EQUALS :: value) = some (done, .value key value) := by
  have hstep : step (done, .key key) EQUALS = some (done, .value key []) := rfl
  rw [run_trans (run_key hkey), List.nil_append, run_cons, hstep, Option.bind_some, run_value hvalue]
  rfl

/-- Another parameter behind an `&`. -/
theorem run_next {done : List Setting} {k v key value : Text} (hkey : ∀ b ∈ key, isParam b = true)
    (hvalue : ∀ b ∈ value, isParam b = true) :
    run (done, .value k v) (AMP :: key ++ EQUALS :: value) = some (done ++ [(k, v)], .value key value) := by
  have hstep : step (done, .value k v) AMP = some (done ++ [(k, v)], .key []) := rfl
  rw [List.cons_append, run_cons, hstep, Option.bind_some, run_param hkey hvalue]

/-- A keyword that goes on with a value is refused at its `=`. -/
theorem run_value_equals {done : List Setting} {k v key : Text} (hkey : ∀ b ∈ key, isParam b = true) (rest : Text) :
    run (done, .value k v) (key ++ EQUALS :: rest) = none := by
  rw [run_trans (run_value hkey), run_cons]
  rfl

/-- How a text ends, from the place the reader comes to. -/
inductive Ends (t : Text) : State → Prop
  | outside {s : State} (h : Outside s) : Ends t s
  | key {done : List Setting} {key a b : Text} (h : t = a ++ QUESTION :: b)
      (hlast : key = [] → t.getLast? = some QUESTION ∨ t.getLast? = some AMP) : Ends t (done, .key key)
  | value {done : List Setting} {key value a b : Text} (h : t = a ++ QUESTION :: b) (hb : b ≠ [])
      (hlast : t.getLast? ≠ some AMP) : Ends t (done, .value key value)

theorem ends_run {s s' : State} (hs : Outside s) {t : Text} (h : run s t = some s') : Ends t s' := by
  induction t using List.reverseRecOn generalizing s' with
  | nil => exact .outside (Option.some.inj h ▸ hs)
  | append_singleton t b ih =>
    rw [run_append] at h
    obtain ⟨mid, hmid, h⟩ := Option.bind_eq_some_iff.mp h
    rw [run_cons] at h
    obtain ⟨last, hlast, h⟩ := Option.bind_eq_some_iff.mp h
    obtain rfl : last = s' := Option.some.inj h
    cases ih hmid with
    | outside hout =>
      by_cases hb : b = QUESTION
      · subst hb
        rcases hout.step_question hlast with hnext | ⟨settings, rfl⟩
        · exact .outside hnext
        · exact .key (a := t) (b := []) rfl fun _ => Or.inl (by simp)
      · exact .outside (hout.step hb hlast)
    | @key done key front rest heq hend =>
      have hsplit : t ++ [b] = front ++ QUESTION :: (rest ++ [b]) := by rw [heq, List.append_assoc]; rfl
      simp only [step] at hlast
      split at hlast
      · exact absurd hlast (Option.some_ne_none _).symm
      · split at hlast
        · next heqb =>
          obtain rfl := Option.some.inj hlast
          exact .value hsplit (by simp) (by simp [heqb, (by decide : EQUALS ≠ AMP)])
        · split at hlast
          · exact absurd hlast (Option.some_ne_none _).symm
          · obtain rfl := Option.some.inj hlast
            exact .key hsplit fun hnil => absurd hnil (by simp)
    | @value done key value front rest heq hne hend =>
      have hsplit : t ++ [b] = front ++ QUESTION :: (rest ++ [b]) := by rw [heq, List.append_assoc]; rfl
      simp only [step] at hlast
      split at hlast
      · exact absurd hlast (Option.some_ne_none _).symm
      · split at hlast
        · exact absurd hlast (Option.some_ne_none _).symm
        · split at hlast
          · next hamp =>
            obtain rfl := Option.some.inj hlast
            exact .key hsplit fun _ => Or.inr (by simp [hamp])
          · next hamp =>
            obtain rfl := Option.some.inj hlast
            exact .value hsplit (by simp) (by simpa using hamp)

end Uri

/-! ## Settings -/

/-- A pair is refused unless its keyword is known. -/
def kvSetting (known : Text → Bool) (s : Setting) : Option Setting := if known s.1 then some s else none

/-- A part or parameter of a URI is percent-encoded. -/
def uriSetting (known : Text → Bool) (s : Setting) : Option Setting := do
  let key ← percentDecode s.1
  let value ← percentDecode s.2
  if known key then some (key, value) else none

/-- The settings of a connection string, or `none` where it is refused. -/
def read (known : Text → Bool) (text : Text) : Option (List Setting) :=
  match Uri.behindScheme text with
  | some rest => (Uri.parts rest).bind (·.mapM (uriSetting known))
  | none => (Kv.pairs text).bind (·.mapM (kvSetting known))

section Settings

variable {known : Text → Bool}

theorem mapM_kvSetting {pairs settings : List Setting} :
    pairs.mapM (kvSetting known) = some settings ↔ pairs = settings ∧ ∀ p ∈ pairs, known p.1 = true := by
  induction pairs generalizing settings with
  | nil =>
    constructor
    · intro h
      exact ⟨Option.some.inj h, fun p hp => absurd hp List.not_mem_nil⟩
    · rintro ⟨rfl, -⟩
      rfl
  | cons p pairs ih =>
    rw [List.mapM_cons, List.forall_mem_cons]
    by_cases hp : known p.1 = true
    · have hset : kvSetting known p = some p := if_pos hp
      rw [hset, Option.bind_eq_bind, Option.bind_some]
      constructor
      · intro h
        obtain ⟨rest, hrest, heq⟩ := Option.bind_eq_some_iff.mp h
        obtain ⟨rfl, hknown⟩ := ih.mp hrest
        exact ⟨Option.some.inj heq, hp, hknown⟩
      · rintro ⟨rfl, -, hknown⟩
        exact Option.bind_eq_some_iff.mpr ⟨pairs, ih.mpr ⟨rfl, hknown⟩, rfl⟩
    · have hset : kvSetting known p = none := if_neg hp
      rw [hset]
      constructor
      · intro h
        exact absurd h (Option.some_ne_none _).symm
      · rintro ⟨-, hknown, -⟩
        exact absurd hknown hp

theorem mapM_append_eq {f : Setting → Option Setting} {s t s' t' : List Setting} (hs : s.mapM f = some s')
    (ht : t.mapM f = some t') : (s ++ t).mapM f = some (s' ++ t') := by
  rw [List.mapM_append, hs, ht]
  rfl

theorem mapM_append_inv {f : Setting → Option Setting} {s t settings : List Setting}
    (h : (s ++ t).mapM f = some settings) :
    ∃ s' t', s.mapM f = some s' ∧ t.mapM f = some t' ∧ settings = s' ++ t' := by
  rw [List.mapM_append] at h
  obtain ⟨s', hs, h⟩ := Option.bind_eq_some_iff.mp h
  obtain ⟨t', ht, h⟩ := Option.bind_eq_some_iff.mp h
  exact ⟨s', t', hs, ht, (Option.some.inj h).symm⟩

theorem uriSetting_eq_some {p s : Setting} (h : uriSetting known p = some s) :
    percentDecode p.1 = some s.1 ∧ percentDecode p.2 = some s.2 ∧ known s.1 = true := by
  unfold uriSetting at h
  obtain ⟨key, hkey, h⟩ := Option.bind_eq_some_iff.mp h
  obtain ⟨value, hvalue, h⟩ := Option.bind_eq_some_iff.mp h
  split at h
  · next hknown =>
    obtain rfl := Option.some.inj h
    exact ⟨hkey, hvalue, hknown⟩
  · exact absurd h (Option.some_ne_none _).symm

theorem uriSetting_of {key value k v : Text} (hkey : percentDecode key = some k) (hvalue : percentDecode value = some v)
    (hknown : known k = true) : uriSetting known (key, value) = some (k, v) := by
  simp [uriSetting, hkey, hvalue, hknown]

theorem mapM_cons_inv {f : Setting → Option Setting} {p : Setting} {pairs settings : List Setting}
    (h : (p :: pairs).mapM f = some settings) :
    ∃ s rest, f p = some s ∧ pairs.mapM f = some rest ∧ settings = s :: rest := by
  rw [List.mapM_cons] at h
  obtain ⟨s, hs, h⟩ := Option.bind_eq_some_iff.mp h
  obtain ⟨rest, hrest, h⟩ := Option.bind_eq_some_iff.mp h
  exact ⟨s, rest, hs, hrest, (Option.some.inj h).symm⟩

theorem mapM_cons_eq {f : Setting → Option Setting} {p s : Setting} {pairs settings : List Setting}
    (hp : f p = some s) (h : pairs.mapM f = some settings) : (p :: pairs).mapM f = some (s :: settings) := by
  rw [List.mapM_cons, hp, h]
  rfl

theorem uriSetting_placed {p s : Setting} (h : uriSetting known p = some s) (hp : p.1 ∈ Uri.placed) : s.1 = p.1 := by
  have hplain : ∀ k ∈ Uri.placed, percentDecode k = some k := by decide
  have hkey := (uriSetting_eq_some h).1
  rw [hplain p.1 hp] at hkey
  exact (Option.some.inj hkey).symm

/-- The keywords of a URI's parts are spelled as they are. -/
theorem map_fst_placed {pairs settings : List Setting} (h : pairs.mapM (uriSetting known) = some settings)
    (hplaced : ∀ p ∈ pairs, p.1 ∈ Uri.placed) : settings.map Prod.fst = pairs.map Prod.fst := by
  induction pairs generalizing settings with
  | nil =>
    obtain rfl := Option.some.inj h
    rfl
  | cons p pairs ih =>
    rw [List.forall_mem_cons] at hplaced
    obtain ⟨s, rest, hs, hrest, rfl⟩ := mapM_cons_inv h
    rw [List.map_cons, List.map_cons, ih hrest hplaced.2, uriSetting_placed hs hplaced.1]

theorem mem_placed_of_mapM {pairs settings : List Setting} (h : pairs.mapM (uriSetting known) = some settings)
    (hplaced : ∀ p ∈ pairs, p.1 ∈ Uri.placed) : ∀ s ∈ settings, s.1 ∈ Uri.placed := by
  intro s hs
  have hmem := List.mem_map_of_mem (f := Prod.fst) hs
  rw [map_fst_placed h hplaced] at hmem
  obtain ⟨p, hp, heq⟩ := List.mem_map.mp hmem
  exact heq ▸ hplaced p hp

end Settings

end Conninfo
