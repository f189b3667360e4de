import MojoHttp.Cookie.ResponseJar

/-!
# A built cookie on the wire

What the `Set-Cookie` value of a cookie that a view built says, read as a browser reads it: split at
`;`, each part trimmed, a name before the first `=`.

* **`encode_append`** — the transcoding works part by part.
* **`Cookie.attributes`** — the attributes that are set, in the order they are written.
* **`splitOn_buildHeaderValue`** — the value split again.
* **`setCookie_lines`** — of a jar: its cookies' lines and its finished ones, a bad cookie left out.
-/

namespace MojoHttp

open BytesConstant
open CrlfText (crlf unlines)

abbrev EQUALS : UInt8 := 0x3D

/-! ## The transcoding, part by part -/

/-- No sequence reaches over a byte that continues none. -/
theorem encode_append (s : Bytes) {d : UInt8} (hd : d < 0x80) (t : Bytes) :
    encodeLatin1HeaderValue (s ++ d :: t) =
      encodeLatin1HeaderValue s ++ d :: encodeLatin1HeaderValue t := by
  have hcont : ∀ b : UInt8, ¬((b = 0xC2 ∨ b = 0xC3) ∧ d ≥ 0x80 ∧ d ≤ 0xBF) :=
    fun b hseq => UInt8.not_le.mpr hd hseq.2.1
  have hcons : encodeLatin1HeaderValue (d :: t) = d :: encodeLatin1HeaderValue t := by
    cases t with
    | nil => rfl
    | cons e t =>
      rw [encodeLatin1HeaderValue, if_neg]
      rintro ⟨rfl | rfl, -⟩ <;> exact absurd hd (by decide)
  induction s using encodeLatin1HeaderValue.induct with
  | case1 => exact hcons
  | case2 b =>
    show encodeLatin1HeaderValue (b :: d :: t) = b :: d :: encodeLatin1HeaderValue t
    rw [encodeLatin1HeaderValue, if_neg (hcont b), hcons]
  | case3 b b2 s hseq ih =>
    rw [List.cons_append, List.cons_append, encodeLatin1HeaderValue, if_pos hseq, ih,
      encodeLatin1HeaderValue, if_pos hseq, List.cons_append]
  | case4 b b2 s hseq ih =>
    rw [List.cons_append, List.cons_append, encodeLatin1HeaderValue, if_neg hseq, ← List.cons_append, ih,
      encodeLatin1HeaderValue, if_neg hseq, List.cons_append]

/-! ## The attributes -/

namespace Cookie

/-- The attributes that are set, each with its value if it has one. -/
def attributes (c : Cookie) : List (Bytes × Option Bytes) :=
  (c.maxAge.map fun d => (ascii "Max-Age", some (intText d.totalSeconds))).toList ++
    (c.domain.map fun domain => (ascii "Domain", some domain)).toList ++
    (c.path.map fun path => (ascii "Path", some path)).toList ++
    (if c.secure then [(ascii "Secure", none)] else []) ++
    (if c.httpOnly then [(ascii "HttpOnly", none)] else []) ++
    (c.sameSite.map fun s => (ascii "SameSite", some s.text)).toList ++
    if c.partitioned then [(ascii "Partitioned", none)] else []

def attributeNames : List Bytes :=
  [ascii "Max-Age", ascii "Domain", ascii "Path", ascii "Secure", ascii "HttpOnly", ascii "SameSite",
    ascii "Partitioned"]

/-- An attribute, its value in latin-1. -/
def spelled (enc : Bytes → Bytes) : Bytes × Option Bytes → Bytes
  | (key, none) => key
  | (key, some value) => key ++ EQUALS :: enc value

theorem buildHeaderValue_eq (c : Cookie) :
    c.buildHeaderValue = c.name ++ EQUALS :: c.value ++
      c.attributes.flatMap fun a => SEMICOLON :: 0x20 :: spelled id a := by
  have hvalued : ∀ (key : Bytes) (value : Option Bytes), valued key value =
      (value.map fun v => (key, some v)).toList.flatMap fun a => SEMICOLON :: 0x20 :: spelled id a := by
    intro key value
    cases value with
    | none => rfl
    | some value =>
      show separator ++ key ++ equal ++ value = SEMICOLON :: 0x20 :: (key ++ EQUALS :: value) ++ []
      rw [List.append_nil, List.append_assoc, List.append_assoc]
      rfl
  have hflag : ∀ (key : Bytes) (set : Bool), flag key set =
      (if set then [(key, none)] else []).flatMap fun a => SEMICOLON :: 0x20 :: spelled id a := by
    intro key set
    cases set with
    | false => rfl
    | true =>
      show separator ++ key = SEMICOLON :: 0x20 :: key ++ []
      rw [List.append_nil]
      rfl
  unfold buildHeaderValue attributes
  rw [hvalued, hvalued, hvalued, hvalued, hflag, hflag, hflag]
  simp only [List.flatMap_append, List.append_assoc, Option.map_map]
  rfl

/-- Each attribute has one of the names, and its value is a number, the `Domain`, the `Path` or a
`SameSite`. -/
theorem mem_attributes {c : Cookie} {a : Bytes × Option Bytes} (h : a ∈ c.attributes) :
    a.1 ∈ attributeNames ∧ ∀ v, a.2 = some v →
      (∃ x, v = intText x) ∨ c.domain = some v ∨ c.path = some v ∨ ∃ s : SameSite, v = s.text := by
  have hflag : ∀ {key : Bytes} {set : Bool}, key ∈ attributeNames →
      a ∈ (if set then [(key, none)] else []) → a.1 ∈ attributeNames ∧ ∀ v, a.2 = some v →
        (∃ x, v = intText x) ∨ c.domain = some v ∨ c.path = some v ∨ ∃ s : SameSite, v = s.text := by
    intro key set hkey ha
    split at ha
    · rw [List.mem_singleton.mp ha]
      refine ⟨hkey, fun v hv => ?_⟩
      cases hv
    · cases ha
  simp only [attributes, List.mem_append, Option.mem_toList, Option.map_eq_some_iff] at h
  rcases h with (((((⟨d, -, rfl⟩ | ⟨domain, hd, rfl⟩) | ⟨path, hp, rfl⟩) | ha) | ha) | ⟨s, -, rfl⟩) | ha
  · refine ⟨?_, fun v hv => Or.inl ⟨d.totalSeconds, (Option.some.inj hv).symm⟩⟩
    exact (by decide : ascii "Max-Age" ∈ attributeNames)
  · refine ⟨?_, fun v hv => Or.inr (Or.inl (hd.trans hv))⟩
    exact (by decide : ascii "Domain" ∈ attributeNames)
  · refine ⟨?_, fun v hv => Or.inr (Or.inr (Or.inl (hp.trans hv)))⟩
    exact (by decide : ascii "Path" ∈ attributeNames)
  · exact hflag (by decide) ha
  · exact hflag (by decide) ha
  · refine ⟨?_, fun v hv => Or.inr (Or.inr (Or.inr ⟨s, (Option.some.inj hv).symm⟩))⟩
    exact (by decide : ascii "SameSite" ∈ attributeNames)
  · exact hflag (by decide) ha

/-- What the names of the attributes are made of. -/
theorem attributeNames_bytes : ∀ key ∈ attributeNames, ∀ b ∈ key,
    b < 0x80 ∧ b ≠ SEMICOLON ∧ b ≠ EQUALS ∧ isOws b = false := by decide

theorem addsNoAttribute_intText (x : Int) : addsNoAttribute (intText x) = true := by
  have hdigits : ∀ b : UInt8, 0x30 ≤ b ∧ b ≤ 0x39 → (!(b < 0x20 || b == 0x7F || b == 0x3B)) = true :=
    forall_byte (by decide)
  unfold addsNoAttribute
  rw [List.all_eq_true]
  intro b hb
  unfold intText at hb
  split at hb
  · rcases List.mem_cons.mp hb with rfl | hb
    · decide
    · exact hdigits b (decimal_digits _ b hb)
  · exact hdigits b (decimal_digits _ b hb)

theorem addsNoAttribute_sameSite (s : SameSite) : addsNoAttribute s.text = true := by
  unfold SameSite.text
  split
  · decide
  · split <;> decide

/-- Each value that is written holds no `;` and no control byte. -/
theorem attributes_values {c : Cookie} (h : builtCookieIsWellFormed c = true) {a : Bytes × Option Bytes}
    (ha : a ∈ c.attributes) {v : Bytes} (hv : a.2 = some v) : addsNoAttribute v = true := by
  simp only [builtCookieIsWellFormed, Bool.and_eq_true] at h
  obtain ⟨⟨-, hdomain⟩, hpath⟩ := h
  rcases (mem_attributes ha).2 v hv with ⟨x, rfl⟩ | hd | hp | ⟨s, rfl⟩
  · exact addsNoAttribute_intText x
  · rw [hd] at hdomain
    exact hdomain
  · rw [hp] at hpath
    exact hpath
  · exact addsNoAttribute_sameSite s

end Cookie

/-! ## The parts -/

theorem splitOn_parts {first : Bytes} {parts : List Bytes} (hfirst : SEMICOLON ∉ first)
    (hparts : ∀ part ∈ parts, SEMICOLON ∉ part) :
    (first ++ parts.flatMap (SEMICOLON :: ·)).splitOn SEMICOLON = first :: parts := by
  induction parts generalizing first with
  | nil => rw [List.flatMap_nil, List.append_nil, List.splitOn_eq_singleton hfirst]
  | cons part parts ih =>
    obtain ⟨hpart, hrest⟩ := List.forall_mem_cons.mp hparts
    rw [List.flatMap_cons, List.cons_append, List.splitOn_append_cons_self_of_not_mem hfirst,
      ih hpart hrest]

theorem semicolon_not_mem {s : Bytes} (h : addsNoAttribute s = true) : SEMICOLON ∉ s := by
  intro hmem
  exact absurd (List.all_eq_true.mp h SEMICOLON hmem) (by decide)

theorem semicolon_not_mem_encode {s : Bytes} (h : addsNoAttribute s = true) :
    SEMICOLON ∉ encodeLatin1HeaderValue s :=
  fun hmem => semicolon_not_mem h (mem_of_mem_encode (by decide) hmem)

/-- A name and a value, then the rest. -/
theorem encode_pair {key : Bytes} (hkey : ∀ b ∈ key, b < 0x80) (value : Bytes) :
    encodeLatin1HeaderValue (key ++ EQUALS :: value) = key ++ EQUALS :: encodeLatin1HeaderValue value := by
  rw [encode_append key (by decide), encodeLatin1HeaderValue_ascii hkey]

theorem encode_spelled {a : Bytes × Option Bytes} (ha : ∀ b ∈ a.1, b < 0x80) :
    encodeLatin1HeaderValue (Cookie.spelled id a) = Cookie.spelled encodeLatin1HeaderValue a := by
  obtain ⟨key, value⟩ := a
  cases value with
  | none => exact encodeLatin1HeaderValue_ascii ha
  | some value => exact encode_pair ha value

theorem encode_parts (first : Bytes) {attributes : List (Bytes × Option Bytes)}
    (hnames : ∀ a ∈ attributes, ∀ b ∈ a.1, b < 0x80) :
    encodeLatin1HeaderValue
        (first ++ attributes.flatMap fun a => SEMICOLON :: 0x20 :: Cookie.spelled id a) =
      encodeLatin1HeaderValue first ++
        (attributes.map fun a => 0x20 :: Cookie.spelled encodeLatin1HeaderValue a).flatMap
          (SEMICOLON :: ·) := by
  induction attributes generalizing first with
  | nil => rw [List.flatMap_nil, List.map_nil, List.flatMap_nil, List.append_nil, List.append_nil]
  | cons a attributes ih =>
    obtain ⟨hname, hnames⟩ := List.forall_mem_cons.mp hnames
    rw [List.flatMap_cons, List.cons_append, encode_append first (by decide), ih _ hnames, List.map_cons,
      List.flatMap_cons, show 0x20 :: Cookie.spelled id a = [] ++ 0x20 :: Cookie.spelled id a from rfl,
      encode_append [] (by decide), encode_spelled hname]
    rfl

/-! ## Trimmed -/

theorem trimmed_behind_space (s : Bytes) : trimmed (0x20 :: s) = trimmed s := by
  rw [trimmed, trimmed, List.dropWhile_cons_of_pos (by decide)]

theorem dropWhile_isOws {s : Bytes} (h : ∀ b, s.head? = some b → isOws b = false) :
    s.dropWhile isOws = s := by
  cases s with
  | nil => rfl
  | cons b s =>
    rw [List.dropWhile_cons_of_neg]
    rw [h b rfl]
    exact Bool.false_ne_true

/-- Of a name and a value only blanks behind the value go. -/
theorem trimmed_pair {key : Bytes} (hkey : ∀ b ∈ key, isOws b = false) (value : Bytes) :
    trimmed (key ++ EQUALS :: value) = key ++ EQUALS :: value.rdropWhile isOws := by
  have hfront : (key ++ EQUALS :: value).dropWhile isOws = key ++ EQUALS :: value := by
    apply dropWhile_isOws
    intro b hb
    cases key with
    | nil =>
      obtain rfl := Option.some.inj hb
      decide
    | cons c key =>
      obtain rfl := Option.some.inj hb
      exact hkey c List.mem_cons_self
  have hstop : (EQUALS :: key.reverse).dropWhile isOws = EQUALS :: key.reverse :=
    List.dropWhile_cons_of_neg (by decide)
  rw [trimmed, hfront, List.rdropWhile, List.reverse_append, List.reverse_cons, List.append_assoc,
    List.singleton_append, List.dropWhile_append, List.rdropWhile]
  split
  · next hempty =>
    rw [hstop, List.isEmpty_iff.mp hempty]
    simp
  · simp

theorem trimmed_key {key : Bytes} (hkey : ∀ b ∈ key, isOws b = false) : trimmed key = key := by
  have hall : ∀ s : Bytes, (∀ b ∈ s, isOws b = false) → s.dropWhile isOws = s := fun s hs =>
    dropWhile_isOws fun b hb => hs b (List.mem_of_mem_head? hb)
  rw [trimmed, hall key hkey, List.rdropWhile, hall _ fun b hb => hkey b (List.mem_reverse.mp hb),
    List.reverse_reverse]

/-- A field as a reader of the line has it. -/
def fieldRead (field : Bytes) : Bytes := (encodeLatin1HeaderValue field).rdropWhile isOws

theorem trimmed_spelled {a : Bytes × Option Bytes} (ha : ∀ b ∈ a.1, isOws b = false) :
    trimmed (0x20 :: Cookie.spelled encodeLatin1HeaderValue a) = Cookie.spelled fieldRead a := by
  rw [trimmed_behind_space]
  obtain ⟨key, value⟩ := a
  cases value with
  | none => exact trimmed_key ha
  | some value => exact trimmed_pair ha _

/-- A text without blanks and without bytes above ASCII is read as it is. -/
theorem fieldRead_plain {s : Bytes} (h : ∀ b ∈ s, b < 0x80 ∧ isOws b = false) : fieldRead s = s := by
  have hend : s.reverse.dropWhile isOws = s.reverse := dropWhile_isOws fun b hb =>
    (h b (List.mem_reverse.mp (List.mem_of_mem_head? hb))).2
  rw [fieldRead, encodeLatin1HeaderValue_ascii fun b hb => (h b hb).1, List.rdropWhile, hend,
    List.reverse_reverse]

namespace Cookie

/-- The cookie that a reader of the line has: its fields in latin-1, less the blanks they end with. -/
def onWire (c : Cookie) : Cookie :=
  { c with
    value := fieldRead c.value
    domain := c.domain.map fieldRead
    path := c.path.map fieldRead }

theorem attributes_onWire (c : Cookie) :
    c.attributes.map (spelled fieldRead) = c.onWire.attributes.map (spelled id) := by
  have hdigit : ∀ b : UInt8, 0x30 ≤ b ∧ b ≤ 0x39 → b < 0x80 ∧ isOws b = false :=
    forall_byte (by decide)
  have hnumber : ∀ x : Int, fieldRead (intText x) = intText x := by
    intro x
    apply fieldRead_plain
    intro b hb
    unfold intText at hb
    split at hb
    · rcases List.mem_cons.mp hb with rfl | hb
      · decide
      · exact hdigit b (decimal_digits _ b hb)
    · exact hdigit b (decimal_digits _ b hb)
  have hsite : ∀ s : SameSite, fieldRead s.text = s.text := by
    intro s
    apply fieldRead_plain
    unfold SameSite.text
    split
    · decide
    · split <;> decide
  have hvalued : ∀ (key : Bytes) (value value' : Option Bytes), value.map fieldRead = value' →
      ((value.map fun v => (key, some v)).toList.map (spelled fieldRead)) =
        (value'.map fun v => (key, some v)).toList.map (spelled id) := by
    rintro key value value' rfl
    cases value <;> rfl
  have hflag : ∀ (key : Bytes) (set : Bool),
      (if set then [(key, (none : Option Bytes))] else []).map (spelled fieldRead) =
        (if set then [(key, none)] else []).map (spelled id) := by
    intro key set
    cases set <;> rfl
  have hage := hvalued (ascii "Max-Age") (c.maxAge.map fun d => intText d.totalSeconds)
    (c.maxAge.map fun d => intText d.totalSeconds) (by
      rw [Option.map_map]
      exact congrArg (c.maxAge.map ·) (funext fun d => hnumber d.totalSeconds))
  have hsame := hvalued (ascii "SameSite") (c.sameSite.map SameSite.text) (c.sameSite.map SameSite.text) (by
      rw [Option.map_map]
      exact congrArg (c.sameSite.map ·) (funext hsite))
  rw [Option.map_map] at hage hsame
  unfold attributes onWire
  simp only [List.map_append]
  rw [hflag, hflag, hflag, hvalued (ascii "Domain") c.domain _ rfl, hvalued (ascii "Path") c.path _ rfl]
  exact congrArg₂ _ (congrArg₂ _ (congrArg₂ _ (congrArg₂ _ (congrArg₂ _ (congrArg₂ _ hage rfl) rfl) rfl) rfl)
    hsame) rfl

end Cookie

/-! ## The line -/

theorem wellFormed_name {c : Cookie} (h : builtCookieIsWellFormed c = true) :
    ∀ b ∈ c.name, b < 0x80 ∧ b ≠ SEMICOLON ∧ b ≠ EQUALS ∧ isOws b = false := by
  have htoken : ∀ b : UInt8, isTokenChar b = true →
      b < 0x80 ∧ b ≠ SEMICOLON ∧ b ≠ EQUALS ∧ isOws b = false := forall_byte (by decide)
  simp only [builtCookieIsWellFormed, Bool.and_eq_true] at h
  exact fun b hb => htoken b (List.all_eq_true.mp h.1.1.1.2 b hb)

theorem wellFormed_value {c : Cookie} (h : builtCookieIsWellFormed c = true) :
    addsNoAttribute c.value = true := by
  simp only [builtCookieIsWellFormed, Bool.and_eq_true] at h
  exact h.1.1.2

/-- **The value split again**: the pair, then each attribute that is set. -/
theorem splitOn_buildHeaderValue {c : Cookie} (h : builtCookieIsWellFormed c = true) :
    (encodeLatin1HeaderValue c.buildHeaderValue).splitOn SEMICOLON =
      (c.name ++ EQUALS :: encodeLatin1HeaderValue c.value) ::
        c.attributes.map fun a => 0x20 :: Cookie.spelled encodeLatin1HeaderValue a := by
  have hname := wellFormed_name h
  have hkeys : ∀ a ∈ c.attributes, ∀ b ∈ a.1, b < 0x80 ∧ b ≠ SEMICOLON ∧ b ≠ EQUALS ∧ isOws b = false :=
    fun a ha => Cookie.attributeNames_bytes a.1 (Cookie.mem_attributes ha).1
  rw [Cookie.buildHeaderValue_eq, encode_parts _ fun a ha b hb => (hkeys a ha b hb).1,
    encode_pair fun b hb => (hname b hb).1]
  have hpair : ∀ (key value : Bytes), (∀ b ∈ key, b ≠ SEMICOLON) → addsNoAttribute value = true →
      SEMICOLON ∉ key ++ EQUALS :: encodeLatin1HeaderValue value := by
    intro key value hkey hvalue hmem
    rcases List.mem_append.mp hmem with hmem | hmem
    · exact hkey _ hmem rfl
    · rcases List.mem_cons.mp hmem with heq | hmem
      · exact absurd heq (by decide)
      · exact semicolon_not_mem_encode hvalue hmem
  apply splitOn_parts
  · exact hpair c.name c.value (fun b hb => (hname b hb).2.1) (wellFormed_value h)
  · intro part hpart hmem
    obtain ⟨a, ha, rfl⟩ := List.mem_map.mp hpart
    rcases List.mem_cons.mp hmem with heq | hmem
    · exact absurd heq (by decide)
    · obtain ⟨key, value⟩ := a
      cases value with
      | none => exact (hkeys _ ha _ hmem).2.1 rfl
      | some value =>
        exact hpair key value (fun b hb => (hkeys _ ha b hb).2.1) (Cookie.attributes_values h ha rfl) hmem

/-- A cookie that is well formed breaks no line. -/
theorem clean_buildHeaderValue {c : Cookie} (h : builtCookieIsWellFormed c = true) :
    Clean c.buildHeaderValue := by
  have hascii : ∀ b : UInt8, isTokenChar b = true → breaksLine b = false := forall_byte (by decide)
  have hplain : ∀ b : UInt8, (!(b < 0x20 || b == 0x7F || b == 0x3B)) = true → breaksLine b = false :=
    forall_byte (by decide)
  have hvalue : ∀ v : Bytes, addsNoAttribute v = true → Clean v := fun v hv b hb =>
    hplain b (List.all_eq_true.mp hv b hb)
  have hnames : ∀ key ∈ Cookie.attributeNames, Clean key := by decide
  have hname : Clean c.name := by
    simp only [builtCookieIsWellFormed, Bool.and_eq_true] at h
    exact fun b hb => hascii b (List.all_eq_true.mp h.1.1.1.2 b hb)
  rw [Cookie.buildHeaderValue_eq]
  refine List.forall_mem_append.mpr ⟨List.forall_mem_append.mpr ⟨hname,
    List.forall_mem_cons.mpr ⟨by decide, hvalue _ (wellFormed_value h)⟩⟩, ?_⟩
  intro b hb
  obtain ⟨a, ha, hb⟩ := List.mem_flatMap.mp hb
  have hkey := hnames a.1 (Cookie.mem_attributes ha).1
  have hspelled : Clean (Cookie.spelled id a) := by
    obtain ⟨key, value⟩ := a
    cases value with
    | none => exact hkey
    | some value =>
      exact List.forall_mem_append.mpr ⟨hkey, List.forall_mem_cons.mpr ⟨by decide,
        hvalue _ (Cookie.attributes_values h ha rfl)⟩⟩
  have hclean : Clean (SEMICOLON :: 0x20 :: Cookie.spelled id a) :=
    List.forall_mem_cons.mpr ⟨by decide, List.forall_mem_cons.mpr ⟨by decide, hspelled⟩⟩
  exact hclean b hb

/-- **A built cookie is the cookie its fields name.** A well-formed cookie's value on the wire, split
at `;` and each part trimmed, is its name, the first `=` and its value, then the attributes that are
set in their order; a jar's lines are those of its well-formed cookies, and the finished ones that
break no line. -/
theorem setCookie_lines :
    (∀ c, builtCookieIsWellFormed c = true →
      ((encodeLatin1HeaderValue c.buildHeaderValue).splitOn SEMICOLON).map trimmed =
          (c.name ++ EQUALS :: c.onWire.value) :: c.onWire.attributes.map (Cookie.spelled id) ∧
        EQUALS ∉ c.name) ∧
    ∀ jar : ResponseCookieJar, jar.writeLatin1To =
      unlines (((jar.cookies.filter builtCookieIsWellFormed).map Cookie.buildHeaderValue ++
        jar.raw.filter fun line => decide (Clean line)).map (fieldLine (ascii "set-cookie"))) := by
  constructor
  · intro c h
    have hname := wellFormed_name h
    refine ⟨?_, fun hmem => (hname _ hmem).2.2.1 rfl⟩
    rw [splitOn_buildHeaderValue h, List.map_cons, List.map_map, ← Cookie.attributes_onWire,
      trimmed_pair fun b hb => (hname b hb).2.2.2]
    refine congrArg₂ List.cons rfl (List.map_congr_left ?_)
    intro a ha
    exact trimmed_spelled fun b hb =>
      (Cookie.attributeNames_bytes a.1 (Cookie.mem_attributes ha).1 b hb).2.2.2
  · intro jar
    rw [ResponseCookieJar.writeLatin1To_eq, ResponseCookieJar.kept, ResponseCookieJar.values,
      List.filter_append, List.filter_eq_self.mpr]
    intro v hv
    obtain ⟨c, hc, rfl⟩ := List.mem_map.mp hv
    exact decide_eq_true (clean_buildHeaderValue (List.mem_filter.mp hc).2)

/-- A value that ends with a space: whoever trims the parts does not see it. -/
theorem trimmed_value : ¬∀ c : Cookie, builtCookieIsWellFormed c = true →
    ((encodeLatin1HeaderValue c.buildHeaderValue).splitOn SEMICOLON).map trimmed =
      (c.name ++ EQUALS :: encodeLatin1HeaderValue c.value) ::
        c.attributes.map (Cookie.spelled encodeLatin1HeaderValue) := by
  intro h
  have hvalue := h { name := ascii "a", value := ascii "b " } (by decide)
  exact absurd hvalue (by decide)

end MojoHttp
