import MojoHttp.Header.Accepted

/-!
# An accepted request is framed one way

* **`UnambiguousRequest`** — what the field lines of an accepted head, its target and its
  method are, and what the server reads a body's framing from.
* **`accepted_request_unambiguous`** — `parse_request_headers` accepts no other request.
-/

namespace MojoHttp

open BytesConstant Headers

/-! ## Reading the store -/

/-- The integer a run of decimal digits denotes. -/
def decimalValue (v : Bytes) : Nat := Nat.ofDigits 10 (v.reverse.map fun d => d.toNat - 0x30)

theorem digit_toNat {d : UInt8} (h : isDigit d = true) :
    ¬ (d < 0x30 ∨ d > 0x39) ∧ (d - 0x30).toNat = d.toNat - 0x30 ∧ d.toNat - 0x30 < 10 := by
  revert h
  exact forall_byte (P := fun d => isDigit d = true → ¬ (d < 0x30 ∨ d > 0x39) ∧
    (d - 0x30).toNat = d.toNat - 0x30 ∧ d.toNat - 0x30 < 10) (by decide) d

theorem digitsValue_eq {v : Bytes} (h : ∀ d ∈ v, isDigit d = true) (total : Nat) :
    digitsValue v total = some (total * 10 ^ v.length + decimalValue v) := by
  induction v generalizing total with
  | nil => simp [digitsValue, decimalValue]
  | cons d ds ih =>
    obtain ⟨hrange, hsub, -⟩ := digit_toNat (h d List.mem_cons_self)
    rw [digitsValue, if_neg hrange, ih fun e he => h e (List.mem_cons_of_mem _ he), hsub]
    unfold decimalValue
    rw [List.reverse_cons, List.map_append, List.map_singleton, Nat.ofDigits_append,
      Nat.ofDigits_singleton, List.length_map, List.length_reverse, List.length_cons, Nat.pow_succ]
    congr 1
    ring

theorem decimalValue_lt {v : Bytes} (h : ∀ d ∈ v, isDigit d = true) :
    decimalValue v < 10 ^ v.length := by
  have hlt := Nat.ofDigits_lt_base_pow_length (b := 10)
    (l := v.reverse.map fun d => d.toNat - 0x30) (by decide) (by
      intro x hx
      obtain ⟨d, hd, rfl⟩ := List.mem_map.mp hx
      exact (digit_toNat (h d (List.mem_reverse.mp hd))).2.2)
  rwa [List.length_map, List.length_reverse] at hlt

/-- A known header is read through the table. -/
theorem get_known (h : Headers) (k : KnownHeader) :
    h.get k.name = (h.knownIndex k).map h.valueSpan := by
  unfold Headers.get Headers.find
  rw [knownHeaderId_name]
  rfl

/-- **`content_length` is exact** for the digits a request may send. -/
theorem contentLength_eq {h : Headers} {v : Bytes}
    (hget : h.get KnownHeader.contentLength.name = some v) (h1 : 1 ≤ v.length)
    (h18 : v.length ≤ 18) (hd : ∀ d ∈ v, isDigit d = true) :
    h.contentLength = decimalValue v := by
  unfold Headers.get at hget
  obtain ⟨i, hi, hv⟩ := Option.map_eq_some_iff.mp hget
  have hlt := decimalValue_lt hd
  have hpow : 10 ^ v.length ≤ 10 ^ 18 := Nat.pow_le_pow_right (by decide) h18
  unfold Headers.contentLength
  rw [hi]
  dsimp only
  rw [hv, if_neg (by omega), digitsValue_eq hd, Nat.zero_mul, Nat.zero_add]
  dsimp only
  exact Int.bmod_eq_of_le (by omega) (by omega)

/-! ## The request -/

/-- The framing of a request, and the rest of what its head is held to. `head` is what the
tokenizer took off the buffer: its field lines, its target, its minor version. -/
structure UnambiguousRequest (buffer : Bytes) (head : RequestHead) (p : ParsedRequestHeaders) :
    Prop where
  notBoth : fieldValues buffer head.headers .contentLength = [] ∨
    fieldValues buffer head.headers .transferEncoding = []
  atMostOnce : ∀ k ∈ framingHeaders, (fieldValues buffer head.headers k).length ≤ 1
  /-- What the server reads of either length header is the one line of it. -/
  stored : p.headers.get KnownHeader.contentLength.name
      = (fieldValues buffer head.headers .contentLength).head? ∧
    p.headers.get KnownHeader.transferEncoding.name
      = (fieldValues buffer head.headers .transferEncoding).head?
  length : ∀ v ∈ fieldValues buffer head.headers .contentLength,
    1 ≤ v.length ∧ v.length ≤ 18 ∧ (∀ d ∈ v, isDigit d = true) ∧
      p.contentLength = decimalValue v
  chunked : fieldValues buffer head.headers .transferEncoding ≠ [] ↔ p.isChunkedBody = true
  codings : ∀ v ∈ fieldValues buffer head.headers .transferEncoding,
    ∃ front final, listMembers v = front ++ [final] ∧ (∀ m ∈ front, m = []) ∧ IsChunked final
  host : 1 ≤ head.minorVersion → ∃ v, fieldValues buffer head.headers .host = [v] ∧
    (v = [] ∨ hostValueIsValid v = true)
  authority : 0 < httpSchemeLen head.path →
    p.headers.get KnownHeader.host.name = some (targetAuthority head.path)
  target : p.path.head? = some 0x2F ∨ (p.path = ascii "*" ∧ p.method = ascii "OPTIONS")
  method : p.method = head.method ∧ p.method ≠ ascii "CONNECT"

/-- The checks behind the field loop, on a store that stands for a map. -/
theorem finishRequest_ok {w : IndexWords} {buffer : Bytes} {head : RequestHead}
    {target : Target} {st : FieldState} {m : InsertionMap Bytes Bytes} {p : ParsedRequestHeaders}
    (hs : FieldsSeen buffer head.headers st m)
    (hw : w.ExactTo (blobBound buffer.length) 128) (hn : head.headers.length ≤ 100)
    (htarget : reduceTarget head.method head.path = .ok target) (hne : head.path ≠ [])
    (hlen : head.path.length ≤ buffer.length)
    (h : finishRequest w head target st = .ok p) : UnambiguousRequest buffer head p := by
  obtain ⟨hscheme, hauth, hauthLen, hform⟩ := reduceTarget_ok hne htarget
  obtain ⟨m1, hr1, hget1, hbuf1, hcount1⟩ := joinFields_refines hs hw hn
  have hc := hs.checked
  have hmem : ∀ k : KnownHeader, k = .contentLength ∨ k = .transferEncoding ∨ k = .host →
      k ∈ framingHeaders := by simp [framingHeaders]
  unfold finishRequest at h
  dsimp only at h
  split at h
  · cases h
  rename_i hboth
  split at h
  · cases h
  rename_i hhost
  -- the store once an absolute-form target's authority is the Host
  obtain ⟨m2, hr2, hcl2, hte2, hhost2⟩ : ∃ m2,
      Refines (if target.schemeLen > 0 then (joinFields w st).setBytesKnown w
        KnownHeader.host.name target.authority (some .host) else joinFields w st) m2 ∧
      m2.get? KnownHeader.contentLength.name
        = (fieldValues buffer head.headers .contentLength).head? ∧
      m2.get? KnownHeader.transferEncoding.name
        = (fieldValues buffer head.headers .transferEncoding).head? ∧
      (target.schemeLen > 0 → m2.get? KnownHeader.host.name = some target.authority) := by
    split
    · have hhostLen : KnownHeader.host.name.length = 4 := by decide
      obtain ⟨h1, -, -⟩ := setKnown_refines hr1 .host target.authority hw
        (by unfold blobBound; omega) (by omega)
      refine ⟨_, h1, ?_, ?_, fun _ => InsertionMap.get?_set_self _ _ _⟩
      · rw [InsertionMap.get?_set_of_ne _ _ (by decide), hget1 _ (hmem _ (by simp))]
      · rw [InsertionMap.get?_set_of_ne _ _ (by decide), hget1 _ (hmem _ (by simp))]
    · rename_i hno
      exact ⟨m1, hr1, hget1 _ (hmem _ (by simp)), hget1 _ (hmem _ (by simp)), fun h => absurd h hno⟩
  generalize (if target.schemeLen > 0 then (joinFields w st).setBytesKnown w
    KnownHeader.host.name target.authority (some .host) else joinFields w st) = headers at h hr2
  have hgetK : ∀ k : KnownHeader, headers.get k.name = m2.get? k.name := by
    intro k
    rw [hr2.get, asciiLowercase_name]
  split at h
  · cases h
  rename_i hcodings
  split at h
  · cases h
  rename_i hconnect
  cases h
  have hflagTe : st.seenTransferEncoding = true ↔ _ := hc.flag .transferEncoding (hmem _ (by simp))
  have hflagCl : st.seenContentLength = true ↔ _ := hc.flag .contentLength (hmem _ (by simp))
  -- the one `Transfer-Encoding` value, when there is one, passed the walk
  have hcoding : ∀ v, (fieldValues buffer head.headers .transferEncoding).head? = some v →
      ∃ i, headers.knownIndex .transferEncoding = some i ∧ headers.valueSpan i = v ∧
        ∃ front final, listMembers v = front ++ [final] ∧ (∀ m ∈ front, m = []) ∧
          IsChunked final := by
    intro v hv
    have hget := hgetK .transferEncoding
    rw [hte2, hv, get_known] at hget
    obtain ⟨i, hi, hspan⟩ := Option.map_eq_some_iff.mp hget
    have hseen : st.seenTransferEncoding = true := by
      refine hflagTe.mpr fun hnil => ?_
      rw [hnil] at hv
      cases hv
    rw [hseen, if_pos rfl, hi] at hcodings
    dsimp only at hcodings
    rw [hspan] at hcodings
    exact ⟨i, hi, hspan, checkCodings_ok hcodings⟩
  have hhead : ∀ {k v}, k ∈ framingHeaders → v ∈ fieldValues buffer head.headers k →
      fieldValues buffer head.headers k = [v] := by
    intro k v hk hv
    have honce := hc.once k hk
    cases hvals : fieldValues buffer head.headers k with
    | nil => rw [hvals] at hv; cases hv
    | cons a l =>
      rw [hvals] at hv honce
      have hl : l = [] := List.eq_nil_of_length_eq_zero (by
        rw [List.length_cons] at honce
        omega)
      rw [hl, List.mem_singleton] at hv
      rw [hl, hv]
  refine ⟨?_, hc.once, ⟨?_, ?_⟩, ?_, ?_, ?_, ?_, ?_, ?_, rfl, hconnect⟩
  · -- both flags up is refused
    by_contra hcon
    rw [not_or] at hcon
    exact hboth (by rw [hflagTe.mpr hcon.2, hflagCl.mpr hcon.1]; rfl)
  · exact (hgetK .contentLength).trans hcl2
  · exact (hgetK .transferEncoding).trans hte2
  · intro v hv
    obtain ⟨h1, h18, hall⟩ := hc.passes .contentLength (hmem _ (by simp)) v hv
    rw [List.all_eq_true] at hall
    refine ⟨h1, h18, hall, ?_⟩
    refine contentLength_eq ?_ h1 h18 hall
    rw [hgetK, hcl2, hhead (hmem _ (by simp)) hv]
    rfl
  · refine ⟨fun hsome => ?_, fun hchunked hnil => ?_⟩
    · obtain ⟨v, vs, hv⟩ := List.exists_cons_of_ne_nil hsome
      obtain ⟨i, hi, hspan, front, final, hmembers, -, hfin⟩ := hcoding v (by rw [hv]; rfl)
      unfold ParsedRequestHeaders.isChunkedBody
      dsimp only
      rw [hi]
      dsimp only
      rw [hspan]
      exact (ParsedRequestHeaders.chunkedLast_iff hmembers).mpr hfin
    · have hget := hgetK .transferEncoding
      rw [hte2, hnil, get_known] at hget
      unfold ParsedRequestHeaders.isChunkedBody at hchunked
      dsimp only at hchunked
      rw [Option.map_eq_none_iff.mp hget] at hchunked
      cases hchunked
  · intro v hv
    obtain ⟨-, -, -, hcod⟩ := hcoding v (by rw [hhead (hmem _ (by simp)) hv]; rfl)
    exact hcod
  · intro hminor
    have hsome : st.hostLen ≠ none := fun hnone => hhost ⟨hminor, Or.inl hnone⟩
    rw [hc.hostLen] at hsome
    cases hvals : fieldValues buffer head.headers .host with
    | nil => rw [hvals] at hsome; simp at hsome
    | cons v vs =>
      have hv : v ∈ fieldValues buffer head.headers .host := by rw [hvals]; exact List.mem_cons_self
      refine ⟨v, ?_, hc.passes .host (hmem _ (by simp)) v hv⟩
      rw [← hvals]
      exact hhead (hmem _ (by simp)) hv
  · intro hpos
    rw [← hauth hpos]
    exact (hgetK .host).trans (hhost2 (by omega))
  · rcases hform with hslash | hstar | hconn
    · exact Or.inl hslash
    · exact Or.inr hstar
    · exact absurd hconn hconnect

theorem parseRequestHeaders_unambiguous {w : IndexWords} {buffer : Bytes}
    {p : ParsedRequestHeaders} (hw : w.ExactTo (blobBound buffer.length) 128)
    (h : parseRequestHeaders w buffer = .ok p) :
    ∃ head, httpParseRequestHeaders buffer maxHeaders = .ok head ∧
      UnambiguousRequest buffer head p := by
  unfold parseRequestHeaders at h
  split at h
  · cases h
  · split at h
    · cases h
    · cases h
    · rename_i head hhead
      obtain ⟨-, -, hpath, -, hcount⟩ := httpParseRequestHeaders_ok hhead
      split at h
      · cases h
      · rename_i target htarget
        dsimp only at h
        split at h
        · cases h
        · rename_i st hloop
          obtain ⟨m, hseen⟩ := fieldLoop_seen (fieldsSeen_start buffer _ _) hw
            (by rwa [List.nil_append]) hloop
          rw [List.nil_append] at hseen
          exact ⟨head, hhead, finishRequest_ok hseen hw hcount htarget hpath.1 hpath.2.1 h⟩

/-- **Every accepted request has unambiguous framing**: with index words that hold every offset,
for every buffer; with the source's 32 and 16 bits, for every buffer of up to 2 MiB, whose
offsets they hold. -/
theorem accepted_request_unambiguous (buffer : Bytes) (p : ParsedRequestHeaders) :
    (parseRequestHeaders .unbounded buffer = .ok p →
        ∃ head, httpParseRequestHeaders buffer maxHeaders = .ok head ∧
          UnambiguousRequest buffer head p) ∧
      (buffer.length ≤ 2 ^ 21 → parseRequestHeaders .packed buffer = .ok p →
        ∃ head, httpParseRequestHeaders buffer maxHeaders = .ok head ∧
          UnambiguousRequest buffer head p) := by
  refine ⟨fun h => ?_, fun hlen h => ?_⟩
  · exact parseRequestHeaders_unambiguous (IndexWords.unbounded_exactTo _ _) h
  · exact parseRequestHeaders_unambiguous
      (IndexWords.packed_exactTo (by unfold blobBound; omega) (by decide)) h

/-- A POST whose length is padded, its header named in another case. -/
theorem accepted_request_unambiguous_post :
    let buffer := ascii "POST /a HTTP/1.1\r\nHost: h\r\ncontent-LENGTH: \t12 \r\n\r\n"
    ∃ p, parseRequestHeaders .packed buffer = .ok p ∧ p.contentLength = 12 := by
  intro buffer
  have hok : (parseRequestHeaders .packed buffer).isOk = true := by decide +kernel
  cases hp : parseRequestHeaders .packed buffer with
  | error e =>
    rw [hp] at hok
    cases hok
  | ok p =>
    obtain ⟨head, hhead, hun⟩ := (accepted_request_unambiguous buffer p).2 (by decide) hp
    have hlines : (httpParseRequestHeaders buffer maxHeaders).toOption.map
        (fun head => fieldValues buffer head.headers .contentLength) = some [ascii "12"] := by
      decide +kernel
    rw [hhead] at hlines
    have hvals : fieldValues buffer head.headers .contentLength = [ascii "12"] :=
      Option.some_inj.mp hlines
    obtain ⟨-, -, -, hvalue⟩ := hun.length (ascii "12") (by rw [hvals]; exact List.mem_cons_self)
    refine ⟨p, rfl, hvalue.trans ?_⟩
    rw [show decimalValue (ascii "12") = 12 from by decide +kernel]
    rfl

end MojoHttp
