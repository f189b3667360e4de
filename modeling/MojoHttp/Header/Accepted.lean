import MojoHttp.Header.Codings
import MojoHttp.Header.Refinement

/-!
# What an accepted request is

* **`FieldsSeen`** — the invariant of the field loop: the store holds the first line of each
  framing header, the flags say which were seen, and what a line is checked for holds of every
  line seen. `fieldStep_seen` keeps it, `fieldLoop_seen` runs it.
* **`UnambiguousRequest`** — the framing of an accepted request, in terms of the field lines
  the tokenizer found.
* **`accepted_request_unambiguous`** — every accepted request has it.
-/

namespace MojoHttp

open BytesConstant Headers

/-! ## The values of a field -/

/-- The values of the lines named `k`, in order. -/
def fieldValues (buffer : Bytes) (lines : List HTTPHeader) (k : KnownHeader) : List Bytes :=
  (lines.filter fun line => asciiLowercase (line.name buffer) = k.name).map (fieldValue buffer)

/-- The headers that frame a request or name its host. -/
def framingHeaders : List KnownHeader := [.contentLength, .transferEncoding, .host]

theorem fieldValues_snoc_self {buffer : Bytes} {line : HTTPHeader} {k : KnownHeader}
    (h : knownHeaderId (line.name buffer) = some k) (lines : List HTTPHeader) :
    fieldValues buffer (lines ++ [line]) k = fieldValues buffer lines k ++ [fieldValue buffer line] := by
  unfold fieldValues
  rw [List.filter_append, List.map_append]
  simp [knownHeaderId_eq_some.mp h]

theorem fieldValues_snoc_of_ne {buffer : Bytes} {line : HTTPHeader} {k : KnownHeader}
    (h : knownHeaderId (line.name buffer) ≠ some k) (lines : List HTTPHeader) :
    fieldValues buffer (lines ++ [line]) k = fieldValues buffer lines k := by
  have hne : ¬ asciiLowercase (line.name buffer) = k.name := fun he =>
    h (knownHeaderId_eq_some.mpr he)
  unfold fieldValues
  rw [List.filter_append, List.map_append]
  simp [hne]

theorem length_fieldValue_le (buffer : Bytes) (line : HTTPHeader) :
    (fieldValue buffer line).length ≤ buffer.length := by
  unfold fieldValue HTTPHeader.value
  simp only [length_slice]
  omega

theorem length_name_le (buffer : Bytes) (line : HTTPHeader) :
    (line.name buffer).length ≤ buffer.length := by
  unfold HTTPHeader.name
  rw [length_slice]
  omega

/-! ## The invariant of the field loop -/

/-- The store half: the headers stand for `m`, which has the first line of each framing
header, and the blob is no longer than the lines seen can make it. -/
structure FieldsStored (buffer : Bytes) (seen : List HTTPHeader) (h : Headers)
    (m : InsertionMap Bytes Bytes) : Prop where
  refines : Refines h m
  stored : ∀ k ∈ framingHeaders, m.get? k.name = (fieldValues buffer seen k).head?
  blob : h.buf.length ≤ seen.length * (2 * buffer.length)
  count : h.count ≤ seen.length

/-- Whether a line of a framing header has been seen, as the loop remembers it. -/
def FieldState.seen (st : FieldState) : KnownHeader → Bool
  | .contentLength => st.seenContentLength
  | .transferEncoding => st.seenTransferEncoding
  | .host => st.hostLen.isSome
  | _ => false

/-- What the loop checks of a framing header's value. -/
def LinePasses : KnownHeader → Bytes → Prop
  | .contentLength, v => 1 ≤ v.length ∧ v.length ≤ 18 ∧ v.all isDigit = true
  | .host, v => v = [] ∨ hostValueIsValid v = true
  | _, _ => True

/-- The checks half: no framing header is repeated, the flags say which were seen, and each
value passed the check made of it. -/
structure FieldsChecked (buffer : Bytes) (seen : List HTTPHeader) (st : FieldState) : Prop where
  once : ∀ k ∈ framingHeaders, (fieldValues buffer seen k).length ≤ 1
  flag : ∀ k ∈ framingHeaders, st.seen k = true ↔ fieldValues buffer seen k ≠ []
  passes : ∀ k ∈ framingHeaders, ∀ v ∈ fieldValues buffer seen k, LinePasses k v
  hostLen : st.hostLen = (fieldValues buffer seen .host).head?.map List.length

/-- The joined fields stay as long as what was seen allows. -/
structure FieldsJoined (buffer : Bytes) (seen : List HTTPHeader) (st : FieldState) : Prop where
  connection : st.connection.length ≤ 200 * buffer.length + seen.length * (buffer.length + 2)
  cookies : st.cookies.length ≤ seen.length
  cookie : ∀ c ∈ st.cookies, c.length ≤ buffer.length

structure FieldsSeen (buffer : Bytes) (seen : List HTTPHeader) (st : FieldState)
    (m : InsertionMap Bytes Bytes) : Prop where
  stored : FieldsStored buffer seen st.headers m
  checked : FieldsChecked buffer seen st
  joined : FieldsJoined buffer seen st

/-- How far a head of `n` bytes, of a hundred lines at most, can take the blob. -/
def blobBound (n : Nat) : Nat := 601 * n + 1000

/-- A line stored: a framing header for the first time, or any other name. -/
theorem FieldsStored.store {buffer : Bytes} {seen : List HTTPHeader} {h : Headers}
    {m : InsertionMap Bytes Bytes} (hs : FieldsStored buffer seen h m) {w : IndexWords}
    (hw : w.ExactTo (blobBound buffer.length) 128) (hn : seen.length < 100) {line : HTTPHeader}
    (hfirst : ∀ k ∈ framingHeaders, knownHeaderId (line.name buffer) = some k →
      fieldValues buffer seen k = []) :
    FieldsStored buffer (seen ++ [line])
      (h.setBytesKnown w (line.name buffer) (fieldValue buffer line)
        (knownHeaderId (line.name buffer)))
      (m.set (asciiLowercase (line.name buffer)) (fieldValue buffer line)) := by
  have hvalue := length_fieldValue_le buffer line
  have hname := length_name_le buffer line
  obtain ⟨hbuf, hcount⟩ := setBytes_bounds w h (line.name buffer) (fieldValue buffer line)
  have hblob := hs.blob
  have hcount0 := hs.count
  have hlen : (seen ++ [line]).length = seen.length + 1 := by simp
  have hmul : (seen.length + 1) * (2 * buffer.length)
      = seen.length * (2 * buffer.length) + 2 * buffer.length := Nat.succ_mul _ _
  have hcap : seen.length * (2 * buffer.length) ≤ 99 * (2 * buffer.length) :=
    Nat.mul_le_mul_right _ (by omega)
  have hexact : w.ExactTo (h.setBytes w (line.name buffer) (fieldValue buffer line)).buf.length
      (h.setBytes w (line.name buffer) (fieldValue buffer line)).count :=
    ⟨fun k hk => hw.off k (by unfold blobBound; omega), fun k hk => hw.entry k (by omega)⟩
  refine ⟨setBytes_refines hs.refines hexact, fun k hk => ?_, ?_, ?_⟩
  · by_cases hkid : knownHeaderId (line.name buffer) = some k
    · rw [knownHeaderId_eq_some.mp hkid, InsertionMap.get?_set_self,
        fieldValues_snoc_self hkid, hfirst k hk hkid]
      rfl
    · have hne : k.name ≠ asciiLowercase (line.name buffer) := fun he =>
        hkid (knownHeaderId_eq_some.mpr he.symm)
      rw [InsertionMap.get?_set_of_ne _ _ hne, fieldValues_snoc_of_ne hkid, hs.stored k hk]
  · rw [hlen, hmul]
    exact Nat.le_trans hbuf (by omega)
  · rw [hlen]
    exact Nat.le_trans hcount (by omega)

/-- A line that is not stored, and no framing header's. -/
theorem FieldsStored.skip {buffer : Bytes} {seen : List HTTPHeader} {h : Headers}
    {m : InsertionMap Bytes Bytes} (hs : FieldsStored buffer seen h m) {line : HTTPHeader}
    (hno : ∀ k ∈ framingHeaders, knownHeaderId (line.name buffer) ≠ some k) :
    FieldsStored buffer (seen ++ [line]) h m := by
  have hblob := hs.blob
  have hcount := hs.count
  refine ⟨hs.refines, fun k hk => ?_, ?_, ?_⟩
  · rw [fieldValues_snoc_of_ne (hno k hk), hs.stored k hk]
  · rw [List.length_append, List.length_singleton, Nat.succ_mul]
    omega
  · rw [List.length_append, List.length_singleton]
    omega

theorem FieldsChecked.skip {buffer : Bytes} {seen : List HTTPHeader} {st st' : FieldState}
    (hc : FieldsChecked buffer seen st) {line : HTTPHeader}
    (hno : ∀ k ∈ framingHeaders, knownHeaderId (line.name buffer) ≠ some k)
    (hcl : st'.seenContentLength = st.seenContentLength)
    (hte : st'.seenTransferEncoding = st.seenTransferEncoding) (hhost : st'.hostLen = st.hostLen) :
    FieldsChecked buffer (seen ++ [line]) st' := by
  have hsame : ∀ k ∈ framingHeaders,
      fieldValues buffer (seen ++ [line]) k = fieldValues buffer seen k :=
    fun k hk => fieldValues_snoc_of_ne (hno k hk) seen
  have hflag : ∀ k, st'.seen k = st.seen k := by
    intro k
    cases k <;> simp [FieldState.seen, hcl, hte, hhost]
  refine ⟨fun k hk => ?_, fun k hk => ?_, fun k hk => ?_, ?_⟩
  · rw [hsame k hk]
    exact hc.once k hk
  · rw [hsame k hk, hflag]
    exact hc.flag k hk
  · rw [hsame k hk]
    exact hc.passes k hk
  · rw [hsame .host (by simp [framingHeaders]), hhost]
    exact hc.hostLen

/-- No line of a header whose flag is down. -/
theorem FieldsChecked.none_seen {buffer : Bytes} {seen : List HTTPHeader} {st : FieldState}
    (hc : FieldsChecked buffer seen st) {kid : KnownHeader} (hmem : kid ∈ framingHeaders)
    (hdown : st.seen kid = false) : fieldValues buffer seen kid = [] := by
  by_contra hcon
  rw [(hc.flag kid hmem).mpr hcon] at hdown
  cases hdown

/-- The first line of a framing header, its value checked and its flag raised. -/
theorem FieldsChecked.first {buffer : Bytes} {seen : List HTTPHeader} {st st' : FieldState}
    (hc : FieldsChecked buffer seen st) {line : HTTPHeader} {kid : KnownHeader}
    (hmem : kid ∈ framingHeaders) (hkid : knownHeaderId (line.name buffer) = some kid)
    (hdown : st.seen kid = false) (hpass : LinePasses kid (fieldValue buffer line))
    (hup : ∀ k, st'.seen k = if k = kid then true else st.seen k)
    (hhost : st'.hostLen
      = if kid = .host then some (fieldValue buffer line).length else st.hostLen) :
    FieldsChecked buffer (seen ++ [line]) st' := by
  have hself : fieldValues buffer (seen ++ [line]) kid = [fieldValue buffer line] := by
    rw [fieldValues_snoc_self hkid, hc.none_seen hmem hdown, List.nil_append]
  have hne : ∀ k, k ≠ kid → fieldValues buffer (seen ++ [line]) k = fieldValues buffer seen k := by
    intro k hk
    refine fieldValues_snoc_of_ne ?_ seen
    rw [hkid]
    simpa using fun h => hk h.symm
  refine ⟨fun k hk => ?_, fun k hk => ?_, fun k hk => ?_, ?_⟩
  · by_cases hkk : k = kid
    · rw [hkk, hself]
      exact Nat.le_refl _
    · rw [hne k hkk]
      exact hc.once k hk
  · by_cases hkk : k = kid
    · rw [hup, if_pos hkk, hkk, hself]
      simp
    · rw [hup, if_neg hkk, hne k hkk]
      exact hc.flag k hk
  · by_cases hkk : k = kid
    · rw [hkk, hself]
      intro v hv
      rw [List.mem_singleton.mp hv]
      exact hpass
    · rw [hne k hkk]
      exact hc.passes k hk
  · rw [hhost]
    by_cases hk : kid = .host
    · rw [if_pos hk, ← hk, hself]
      rfl
    · rw [if_neg hk, hne .host fun h => hk h.symm]
      exact hc.hostLen

theorem FieldsJoined.grow {buffer : Bytes} {seen : List HTTPHeader} {st st' : FieldState}
    (hj : FieldsJoined buffer seen st) (line : HTTPHeader) (hconn : st'.connection = st.connection)
    (hcookies : st'.cookies = st.cookies) : FieldsJoined buffer (seen ++ [line]) st' := by
  have h1 := hj.connection
  have h2 := hj.cookies
  have hmul : (seen.length + 1) * (buffer.length + 2)
      = seen.length * (buffer.length + 2) + (buffer.length + 2) := Nat.succ_mul _ _
  refine ⟨?_, ?_, ?_⟩
  · rw [hconn, List.length_append, List.length_singleton]
    omega
  · rw [hcookies, List.length_append, List.length_singleton]
    omega
  · rw [hcookies]
    exact hj.cookie

theorem FieldsJoined.cookie_snoc {buffer : Bytes} {seen : List HTTPHeader} {st : FieldState}
    (hj : FieldsJoined buffer seen st) (line : HTTPHeader) :
    FieldsJoined buffer (seen ++ [line])
      { st with cookies := st.cookies ++ [fieldValue buffer line] } := by
  have h1 := hj.connection
  have h2 := hj.cookies
  have hmul : (seen.length + 1) * (buffer.length + 2)
      = seen.length * (buffer.length + 2) + (buffer.length + 2) := Nat.succ_mul _ _
  refine ⟨?_, ?_, fun c hc => ?_⟩
  · rw [List.length_append, List.length_singleton]
    dsimp only
    omega
  · simp only [List.length_append, List.length_singleton]
    omega
  · rcases List.mem_append.mp hc with hc | hc
    · exact hj.cookie c hc
    · rw [List.mem_singleton.mp hc]
      exact length_fieldValue_le buffer line

theorem FieldsJoined.connection_snoc {buffer : Bytes} {seen : List HTTPHeader} {st : FieldState}
    (hj : FieldsJoined buffer seen st) (line : HTTPHeader) {first : Bytes}
    (hfirst : first.length ≤ 200 * buffer.length ∨ first = st.connection) :
    FieldsJoined buffer (seen ++ [line])
      { st with connection := first ++ [0x2C, 0x20] ++ fieldValue buffer line } := by
  have h1 := hj.connection
  have h2 := hj.cookies
  have hvalue := length_fieldValue_le buffer line
  have hmul : (seen.length + 1) * (buffer.length + 2)
      = seen.length * (buffer.length + 2) + (buffer.length + 2) := Nat.succ_mul _ _
  refine ⟨?_, ?_, hj.cookie⟩
  · simp only [List.length_append, List.length_cons, List.length_nil, Nat.zero_add]
    rcases hfirst with hle | rfl <;> omega
  · rw [List.length_append, List.length_singleton]
    dsimp only
    omega

/-- **One field line keeps the invariant.** -/
theorem fieldStep_seen {buffer : Bytes} {seen : List HTTPHeader} {st st' : FieldState}
    {m : InsertionMap Bytes Bytes} (hs : FieldsSeen buffer seen st m) {w : IndexWords}
    (hw : w.ExactTo (blobBound buffer.length) 128) (hn : seen.length < 100) {line : HTTPHeader}
    (h : fieldStep w buffer st line = .ok st') :
    ∃ m', FieldsSeen buffer (seen ++ [line]) st' m' := by
  obtain ⟨hst, hc, hj⟩ := hs
  unfold fieldStep at h
  dsimp only at h
  -- a header outside the framing ones is stored, and nothing is asked of it
  have hother : (∀ k ∈ framingHeaders, knownHeaderId (line.name buffer) ≠ some k) →
      FieldsSeen buffer (seen ++ [line])
        { st with
          headers := st.headers.setBytesKnown w (line.name buffer) (fieldValue buffer line)
            (knownHeaderId (line.name buffer)) }
        (m.set (asciiLowercase (line.name buffer)) (fieldValue buffer line)) := fun hno =>
    ⟨hst.store hw hn fun k hk hkid => absurd hkid (hno k hk), hc.skip hno rfl rfl rfl,
      hj.grow line rfl rfl⟩
  -- a framing header is stored the first time, its value checked
  have hframing : ∀ kid ∈ framingHeaders, knownHeaderId (line.name buffer) = some kid →
      st.seen kid = false →
      FieldsStored buffer (seen ++ [line])
        (st.headers.setBytesKnown w (line.name buffer) (fieldValue buffer line)
          (knownHeaderId (line.name buffer)))
        (m.set (asciiLowercase (line.name buffer)) (fieldValue buffer line)) := by
    intro kid hmem hkid hdown
    refine hst.store hw hn fun k hk hkk => ?_
    rw [hkid, Option.some_inj] at hkk
    rw [← hkk]
    exact hc.none_seen hmem hdown
  cases hkid : knownHeaderId (line.name buffer) with
  | none =>
    rw [hkid] at h hother
    cases h
    exact ⟨_, hother (by simp)⟩
  | some kid =>
    rw [hkid] at h hother hframing
    cases kid with
    | cookie =>
      cases h
      have hno : ∀ k ∈ framingHeaders, knownHeaderId (line.name buffer) ≠ some k := by
        rw [hkid]
        simp [framingHeaders]
      exact ⟨m, hst.skip hno, hc.skip hno rfl rfl rfl, hj.cookie_snoc line⟩
    | contentLength =>
      dsimp only at h
      split at h
      · cases h
      rename_i hseen
      split at h
      · cases h
      rename_i hne
      split at h
      · cases h
      rename_i hall
      split at h
      · cases h
      rename_i hlen
      cases h
      have hmem : KnownHeader.contentLength ∈ framingHeaders := by simp [framingHeaders]
      have hdown : st.seen .contentLength = false := by simpa [FieldState.seen] using hseen
      refine ⟨_, hframing _ hmem rfl hdown, hc.first hmem hkid hdown
        ⟨by omega, by omega, by simpa using hall⟩ (fun k => ?_) rfl, hj.grow line rfl rfl⟩
      cases k <;> rfl
    | host =>
      dsimp only at h
      split at h
      · cases h
      rename_i hseen
      split at h
      · cases h
      rename_i hvalid
      cases h
      have hmem : KnownHeader.host ∈ framingHeaders := by simp [framingHeaders]
      have hdown : st.seen .host = false := by simpa [FieldState.seen] using hseen
      refine ⟨_, hframing _ hmem rfl hdown, hc.first hmem hkid hdown ?_ (fun k => ?_) rfl,
        hj.grow line rfl rfl⟩
      · rw [not_and] at hvalid
        rcases Nat.eq_zero_or_pos (fieldValue buffer line).length with h0 | hpos
        · exact Or.inl (List.eq_nil_of_length_eq_zero h0)
        · exact Or.inr (by simpa using hvalid hpos)
      · cases k <;> rfl
    | transferEncoding =>
      dsimp only at h
      split at h
      · cases h
      rename_i hseen
      cases h
      have hmem : KnownHeader.transferEncoding ∈ framingHeaders := by simp [framingHeaders]
      have hdown : st.seen .transferEncoding = false := by simpa [FieldState.seen] using hseen
      refine ⟨_, hframing _ hmem rfl hdown, hc.first hmem hkid hdown trivial (fun k => ?_) rfl,
        hj.grow line rfl rfl⟩
      cases k <;> rfl
    | connection =>
      have hno : ∀ k ∈ framingHeaders, knownHeaderId (line.name buffer) ≠ some k := by
        rw [hkid]
        simp [framingHeaders]
      dsimp only at h
      split at h
      · -- a second line, joined outside the store
        rename_i i hi
        cases h
        refine ⟨m, hst.skip hno, hc.skip hno rfl rfl rfl, hj.connection_snoc line ?_⟩
        split
        · refine Or.inl ?_
          have hspan : (st.headers.valueSpan i).length ≤ st.headers.buf.length := by
            unfold Headers.valueSpan Headers.span
            rw [length_slice]
            omega
          have hblob := hst.blob
          have hcap : seen.length * (2 * buffer.length) ≤ 100 * (2 * buffer.length) :=
            Nat.mul_le_mul_right _ (by omega)
          omega
        · exact Or.inr rfl
      · cases h
        exact ⟨_, hother (by simp [framingHeaders])⟩
    | contentType => cases h; exact ⟨_, hother (by simp [framingHeaders])⟩
    | date => cases h; exact ⟨_, hother (by simp [framingHeaders])⟩
    | upgrade => cases h; exact ⟨_, hother (by simp [framingHeaders])⟩
    | expect => cases h; exact ⟨_, hother (by simp [framingHeaders])⟩
    | server => cases h; exact ⟨_, hother (by simp [framingHeaders])⟩

/-- Every run of the field loop keeps the invariant. -/
theorem fieldLoop_seen {buffer : Bytes} {seen lines : List HTTPHeader} {st st' : FieldState}
    {m : InsertionMap Bytes Bytes} (hs : FieldsSeen buffer seen st m) {w : IndexWords}
    (hw : w.ExactTo (blobBound buffer.length) 128) (hn : (seen ++ lines).length ≤ 100)
    (h : fieldLoop w buffer st lines = .ok st') :
    ∃ m', FieldsSeen buffer (seen ++ lines) st' m' := by
  induction lines generalizing seen st m with
  | nil =>
    cases h
    exact ⟨m, by rwa [List.append_nil]⟩
  | cons line lines ih =>
    unfold fieldLoop at h
    have hlt : seen.length < 100 := by
      simp only [List.length_append, List.length_cons] at hn
      omega
    split at h
    · cases h
    · rename_i st1 hstep
      obtain ⟨m1, hs1⟩ := fieldStep_seen hs hw hlt hstep
      have happ : seen ++ line :: lines = seen ++ [line] ++ lines := by simp
      rw [happ] at hn ⊢
      exact ih hs1 hn h

theorem fieldsSeen_start (buffer : Bytes) (bytes entries : Int) :
    FieldsSeen buffer [] ⟨Headers.empty.reserve bytes entries, [], false, false, none, []⟩
      InsertionMap.empty := by
  refine ⟨⟨reserve_refines empty_refines _ _, fun k _ => rfl, Nat.zero_le _, Nat.le_refl _⟩,
    ⟨fun k _ => Nat.zero_le _, fun k hk => ?_, fun k _ v hv => (by cases hv), rfl⟩,
    ⟨Nat.zero_le _, Nat.le_refl _, fun c hc => (by cases hc)⟩⟩
  simp [fieldValues, FieldState.seen]
  cases k <;> rfl

/-! ## The fields behind the loop -/

theorem setKnown_refines {h : Headers} {m : InsertionMap Bytes Bytes} (hr : Refines h m)
    (k : KnownHeader) (value : Bytes) {w : IndexWords} {bytes : Nat} (hw : w.ExactTo bytes 128)
    (hbytes : h.buf.length + value.length + k.name.length ≤ bytes) (hcount : h.count ≤ 127) :
    Refines (h.setBytesKnown w k.name value (some k)) (m.set k.name value) ∧
      (h.setBytesKnown w k.name value (some k)).buf.length
        ≤ h.buf.length + value.length + k.name.length ∧
      (h.setBytesKnown w k.name value (some k)).count ≤ h.count + 1 := by
  have hset : h.setBytesKnown w k.name value (some k) = h.setBytes w k.name value := by
    unfold Headers.setBytes
    rw [knownHeaderId_name]
  obtain ⟨hb, hc⟩ := setBytes_bounds w h k.name value
  rw [hset]
  refine ⟨?_, hb, hc⟩
  have hrefines : Refines (h.setBytes w k.name value) (m.set (asciiLowercase k.name) value) :=
    setBytes_refines hr ⟨fun n hn => hw.off n (by omega), fun n hn => hw.entry n (by omega)⟩
  rwa [asciiLowercase_name] at hrefines

theorem length_intercalate_le (sep : Bytes) {l : List Bytes} {n : Nat}
    (h : ∀ c ∈ l, c.length ≤ n) : (sep.intercalate l).length ≤ l.length * (n + sep.length) := by
  induction l with
  | nil => simp [List.intercalate]
  | cons c l ih =>
    have hc := h c List.mem_cons_self
    have hl := ih fun d hd => h d (List.mem_cons_of_mem _ hd)
    have hmul : (l.length + 1) * (n + sep.length)
        = l.length * (n + sep.length) + (n + sep.length) := Nat.succ_mul _ _
    cases l with
    | nil => simp [List.intercalate]; omega
    | cons d l =>
      rw [List.intercalate_cons_cons]
      simp only [List.length_append, List.length_cons] at hl hmul ⊢
      omega

/-- `Connection` and `Cookie` put back: no framing header is touched. -/
theorem joinFields_refines {buffer : Bytes} {seen : List HTTPHeader} {st : FieldState}
    {m : InsertionMap Bytes Bytes} (hs : FieldsSeen buffer seen st m) {w : IndexWords}
    (hw : w.ExactTo (blobBound buffer.length) 128) (hn : seen.length ≤ 100) :
    ∃ m', Refines (joinFields w st) m' ∧
      (∀ k ∈ framingHeaders, m'.get? k.name = (fieldValues buffer seen k).head?) ∧
      (joinFields w st).buf.length ≤ 600 * buffer.length + 500 ∧
      (joinFields w st).count ≤ 102 := by
  obtain ⟨hst, -, hj⟩ := hs
  have hblob := hst.blob
  have hcount := hst.count
  have hcap : seen.length * (2 * buffer.length) ≤ 100 * (2 * buffer.length) :=
    Nat.mul_le_mul_right _ hn
  have hcap' : seen.length * (buffer.length + 2) ≤ 100 * (buffer.length + 2) :=
    Nat.mul_le_mul_right _ hn
  have hconn := hj.connection
  have hcookies : ((ascii "; ").intercalate st.cookies).length ≤ 100 * (buffer.length + 2) := by
    refine Nat.le_trans (length_intercalate_le _ hj.cookie) ?_
    exact Nat.mul_le_mul_right _ (Nat.le_trans hj.cookies hn)
  have hconnLen : KnownHeader.connection.name.length = 10 := by decide
  have hcookieLen : KnownHeader.cookie.name.length = 6 := by decide
  have hkeep : ∀ (m0 : InsertionMap Bytes Bytes) (k0 : KnownHeader) (v : Bytes),
      k0 ∉ framingHeaders → ∀ k ∈ framingHeaders, (m0.set k0.name v).get? k.name = m0.get? k.name := by
    intro m0 k0 v hk0 k hk
    refine InsertionMap.get?_set_of_ne _ _ fun hname => hk0 ?_
    rw [← KnownHeader.name_injective hname]
    exact hk
  -- the store once the `Connection` lines are joined
  obtain ⟨m1, hr1, hget1, hbuf1, hcount1⟩ : ∃ m1,
      Refines (if st.connection.length > 0 then st.headers.setBytesKnown w
        KnownHeader.connection.name st.connection (some .connection) else st.headers) m1 ∧
      (∀ k ∈ framingHeaders, m1.get? k.name = m.get? k.name) ∧
      (if st.connection.length > 0 then st.headers.setBytesKnown w
        KnownHeader.connection.name st.connection (some .connection) else st.headers).buf.length
        ≤ 500 * buffer.length + 210 ∧
      (if st.connection.length > 0 then st.headers.setBytesKnown w
        KnownHeader.connection.name st.connection (some .connection) else st.headers).count
        ≤ 101 := by
    split
    · obtain ⟨h1, h2, h3⟩ := setKnown_refines hst.refines .connection st.connection hw
        (by unfold blobBound; omega) (by omega)
      exact ⟨_, h1, hkeep m .connection _ (by simp [framingHeaders]), by omega, by omega⟩
    · exact ⟨m, hst.refines, fun k _ => rfl, by omega, by omega⟩
  unfold joinFields
  dsimp only
  split
  · obtain ⟨h1, h2, h3⟩ := setKnown_refines hr1 .cookie ((ascii "; ").intercalate st.cookies) hw
      (by unfold blobBound; omega) (by omega)
    refine ⟨_, h1, fun k hk => ?_, by omega, by omega⟩
    rw [hkeep m1 .cookie _ (by simp [framingHeaders]) k hk, hget1 k hk, hst.stored k hk]
  · refine ⟨m1, hr1, fun k hk => ?_, by omega, by omega⟩
    rw [hget1 k hk, hst.stored k hk]

/-! ## The target -/

/-- The authority of an absolute-form target: behind its scheme, up to a `/`, `?` or `#`. -/
def targetAuthority (target : Bytes) : Bytes :=
  (target.drop (httpSchemeLen target)).takeWhile fun c => !endsAuthority c

theorem authorityEnd_spec (target : Bytes) (k i : Nat) (h : i + k = target.length) :
    i ≤ authorityEnd target k i ∧ authorityEnd target k i ≤ target.length ∧
      slice target i (authorityEnd target k i)
        = (target.drop i).takeWhile fun c => !endsAuthority c := by
  induction k generalizing i with
  | zero =>
    have hi : target.length ≤ i := by omega
    simp [authorityEnd, slice_self, List.drop_eq_nil_of_le hi]
    omega
  | succ k ih =>
    have hlt : i < target.length := by omega
    have hget := List.getD_eq_getElem target 0 hlt
    simp only [authorityEnd]
    split
    · rename_i hend
      rw [hget] at hend
      refine ⟨Nat.le_refl _, by omega, ?_⟩
      rw [slice_self, List.drop_eq_getElem_cons hlt, List.takeWhile_cons_of_neg (by simp [hend])]
    · rename_i hnot
      rw [hget] at hnot
      obtain ⟨h1, h2, h3⟩ := ih (i + 1) (by omega)
      refine ⟨by omega, h2, ?_⟩
      rw [slice_cons_getD target (by omega) h2, h3, hget]
      conv => rhs; rw [List.drop_eq_getElem_cons hlt]
      rw [List.takeWhile_cons_of_pos (by simp [hnot])]

theorem httpSchemeLen_le (target : Bytes) : httpSchemeLen target ≤ target.length := by
  unfold httpSchemeLen
  dsimp only
  repeat' split
  all_goals omega

/-- The forms a target that is let through may have, CONNECT's apart. -/
theorem reduceTarget_ok {method path : Bytes} {target : Target} (hne : path ≠ [])
    (h : reduceTarget method path = .ok target) :
    target.schemeLen = httpSchemeLen path ∧
      (0 < httpSchemeLen path → target.authority = targetAuthority path) ∧
      target.authority.length ≤ path.length ∧
      (target.path.head? = some 0x2F ∨ (target.path = ascii "*" ∧ method = ascii "OPTIONS") ∨
        method = ascii "CONNECT") := by
  unfold reduceTarget at h
  dsimp only at h
  split at h
  · rename_i hscheme
    split at h
    · cases h
    · rename_i hform
      cases h
      refine ⟨hscheme.symm, fun h => absurd hscheme (by omega), Nat.zero_le _, ?_⟩
      obtain ⟨c, cs, rfl⟩ := List.exists_cons_of_ne_nil hne
      simp only [not_and, List.getD_cons_zero] at hform
      by_cases hc : c = 0x2F
      · exact Or.inl (by rw [hc]; rfl)
      · by_cases hstar : c :: cs = ascii "*" ∧ method = ascii "OPTIONS"
        · exact Or.inr (Or.inl hstar)
        · exact Or.inr (Or.inr (by simpa using hform hc (fun h1 h2 => hstar ⟨h1, h2⟩)))
  · rename_i hscheme
    have hle := httpSchemeLen_le path
    obtain ⟨h1, h2, h3⟩ := authorityEnd_spec path (path.length - httpSchemeLen path)
      (httpSchemeLen path) (by omega)
    split at h
    · cases h
    · split at h
      · cases h
      · split at h
        · cases h
        · cases h
          refine ⟨rfl, fun _ => h3, ?_, Or.inl ?_⟩
          · dsimp only
            rw [length_slice]
            omega
          · dsimp only
            split
            · rfl
            · rename_i hopen
              rw [not_or, not_not] at hopen
              have hlt : authorityEnd path (path.length - httpSchemeLen path) (httpSchemeLen path)
                  < path.length := by omega
              have hslash := hopen.2
              rw [List.getD_eq_getElem _ _ hlt] at hslash
              rw [List.nil_append, List.drop_eq_getElem_cons hlt, hslash]
              rfl

end MojoHttp
