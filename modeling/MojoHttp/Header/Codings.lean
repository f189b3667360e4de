import MojoHttp.Header.Request

/-!
# The codings of a `Transfer-Encoding`

The walk of `parse_request_headers` over the list, and the look at its last member that
`is_chunked_body` takes from the back.

* **`checkCodings_ok`** — a value that passes is empty members and one final `chunked`.
* **`chunkedLast_iff`** — the look from the back finds the walk's last member.
-/

namespace MojoHttp

open BytesConstant

/-- A list member naming the `chunked` coding, in any letter case. -/
def IsChunked (member : Bytes) : Prop := asciiLowercase member = ascii "chunked"

theorem nameIs_chunked {member : Bytes} :
    nameIs member (ascii "chunked") = true ↔ IsChunked member := nameIs_iff

theorem slice_ne_nil {x : Bytes} {a b : Nat} (hb : b ≤ x.length) :
    slice x a b ≠ [] ↔ a < b := by
  rw [← List.length_pos_iff, length_slice]
  omega

/-- The walk from `start` on: no `chunked` before the last member, `other` set by any other
coding there, and the last member asked. -/
theorem codingWalk_ok {te : Bytes} {fuel start : Nat} {other last other' last' : Bool}
    (hstart : start ≤ te.length) (hfuel : te.length - start < fuel)
    (h : codingWalk te fuel start other last = .ok (other', last')) :
    ∃ front final, listMembers (te.drop start) = front ++ [final] ∧
      (∀ m ∈ front, ¬ IsChunked m) ∧ (other' = true ↔ other = true ∨ ∃ m ∈ front, m ≠ []) ∧
      (last' = true ↔ IsChunked final) := by
  induction fuel generalizing start other last with
  | zero => omega
  | succ fuel ih =>
    obtain ⟨hab, hb, hlt, hle, hmembers⟩ := nextListMember_spec te hstart
    unfold codingWalk at h
    rw [if_pos hstart] at h
    generalize hm : nextListMember te start = member at h hab hb hlt hle hmembers
    obtain ⟨a, b, next⟩ := member
    dsimp only at h hab hb hlt hle hmembers
    by_cases hlast : next = te.length + 1
    · -- the last member: the walk stops behind it
      rw [if_pos hlast] at h hmembers
      have hstop : codingWalk te fuel next other (nameIs (slice te a b) (ascii "chunked"))
          = .ok (other, nameIs (slice te a b) (ascii "chunked")) := by
        cases fuel with
        | zero => rfl
        | succ fuel => rw [codingWalk, if_neg (by omega)]
      rw [hstop] at h
      cases h
      exact ⟨[], slice te a b, hmembers, by simp, by simp, nameIs_chunked⟩
    · rw [if_neg hlast] at h hmembers
      by_cases hc : nameIs (slice te a b) (ascii "chunked") = true
      · rw [if_pos hc] at h
        cases h
      · rw [if_neg hc] at h
        obtain ⟨front, final, hrest, hno, hother, hfin⟩ := ih (by omega) (by omega) h
        refine ⟨slice te a b :: front, final, ?_, ?_, ?_, hfin⟩
        · rw [hmembers, hrest]
          rfl
        · intro m hmem
          rcases List.mem_cons.mp hmem with rfl | hmem
          · exact fun hchunked => hc (nameIs_chunked.mpr hchunked)
          · exact hno m hmem
        · rw [hother]
          have hne := slice_ne_nil (x := te) (a := a) hb
          by_cases hba : b > a
          · simp [hba, hne.mpr hba]
          · have hnil : slice te a b = [] := by
              by_contra hcon
              exact hba (hne.mp hcon)
            simp [hba, hnil]

/-- **A list of codings that passes is empty members and one final `chunked`.** -/
theorem checkCodings_ok {te : Bytes} (h : checkCodings te = .ok ()) :
    ∃ front final, listMembers te = front ++ [final] ∧ (∀ m ∈ front, m = []) ∧
      IsChunked final := by
  unfold checkCodings at h
  split at h
  · cases h
  · rename_i other last hwalk
    obtain ⟨front, final, hmembers, -, hother, hfin⟩ :=
      codingWalk_ok (Nat.zero_le _) (by omega) hwalk
    rw [List.drop_zero] at hmembers
    split at h
    · cases h
    · rename_i hlast
      split at h
      · cases h
      · rename_i hnot
        refine ⟨front, final, hmembers, fun m hm => ?_, hfin.mp (by simpa using hlast)⟩
        by_contra hne
        exact hnot (hother.mpr (Or.inr ⟨m, hm, hne⟩))

namespace ParsedRequestHeaders

theorem lastMemberStart_le (te : Bytes) (n : Nat) : lastMemberStart te n ≤ n := by
  induction n with
  | zero => exact Nat.le_refl _
  | succ n ih =>
    simp only [lastMemberStart]
    split <;> omega

/-- The bytes behind the last comma hold none. -/
theorem lastMemberStart_spec (te : Bytes) (n : Nat) (hn : n ≤ te.length) :
    COMMA ∉ slice te (lastMemberStart te n) n ∧
      (lastMemberStart te n = 0 ∨ te.getD (lastMemberStart te n - 1) 0 = COMMA) := by
  induction n with
  | zero => exact ⟨by simp [lastMemberStart, slice_self], Or.inl rfl⟩
  | succ n ih =>
    obtain ⟨hno, hat⟩ := ih (by omega)
    have hle := lastMemberStart_le te n
    simp only [lastMemberStart]
    split
    · rename_i hne
      refine ⟨?_, hat⟩
      have hsplit := slice_append_slice te hle (Nat.le_succ n)
      rw [slice_cons_getD te (Nat.lt_succ_self n) hn, slice_self] at hsplit
      rw [← hsplit, List.mem_append, List.mem_singleton, not_or]
      exact ⟨hno, fun h => hne h.symm⟩
    · rename_i heq
      rw [not_not] at heq
      exact ⟨by simp [slice_self], Or.inr heq⟩

/-- The trimmed text behind the last comma is the last member. -/
theorem getLast?_listMembers (te : Bytes) :
    (listMembers te).getLast? = some (trimmed (te.drop (lastMemberStart te te.length))) := by
  obtain ⟨hno, hat⟩ := lastMemberStart_spec te te.length (Nat.le_refl _)
  have hle := lastMemberStart_le te te.length
  set a := lastMemberStart te te.length with ha
  have htail : slice te a te.length = te.drop a := by
    unfold slice
    rw [List.take_of_length_le (by simp)]
  rw [htail] at hno
  unfold listMembers
  rcases Nat.eq_zero_or_pos a with h0 | hpos
  · rw [h0, List.drop_zero] at hno ⊢
    rw [List.splitOn_eq_singleton hno]
    rfl
  · have hcomma : te[a - 1] = COMMA := by
      have := hat.resolve_left (by omega)
      rwa [List.getD_eq_getElem _ _ (by omega)] at this
    have hsplit : te = te.take (a - 1) ++ COMMA :: te.drop a := by
      conv => lhs; rw [← List.take_append_drop (a - 1) te]
      rw [List.drop_eq_getElem_cons (by omega), hcomma, show a - 1 + 1 = a from by omega]
    conv => lhs; rw [hsplit]
    rw [List.splitOn_append_cons_self, List.splitOn_eq_singleton hno, List.map_append,
      List.map_singleton, List.getLast?_concat]

/-- **`is_chunked_body` asks the last member.** -/
theorem chunkedLast_iff {te : Bytes} {front : List Bytes} {final : Bytes}
    (h : listMembers te = front ++ [final]) :
    (let last := trimOws te (lastMemberStart te te.length) te.length
     nameIs (slice te last.1 last.2) (ascii "chunked") = true) ↔ IsChunked final := by
  have hle := lastMemberStart_le te te.length
  have hlast := getLast?_listMembers te
  rw [h, List.getLast?_concat, Option.some_inj] at hlast
  dsimp only
  rw [nameIs_chunked, slice_trimOws te hle (Nat.le_refl _), hlast]
  unfold slice
  rw [List.take_of_length_le (by simp)]

end ParsedRequestHeaders

end MojoHttp
