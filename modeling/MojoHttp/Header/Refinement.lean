import Mathlib.Data.Nat.Digits.Defs
import MojoHttp.Header.Store
import MojoHttp.Lib.InsertionMap

/-!
# `Headers` refines an insertion-ordered map of folded names

* **`Headers.Refines`** — the relation: every entry's offsets hold its name and its value in
  the blob, the known-name table is the map's index, the presence word covers every key.
* **`setBytesKnown_refines` / `pop_refines`** — the step lemmas, for index words that hold
  every offset of the blob the call leaves (`IndexWords.ExactTo`).
* **`Refines.find` / `Refines.get` / `Refines.keys`** — what each lookup answers.
-/

namespace MojoHttp

/-! ## Words that hold what is stored -/

/-- Every offset into `bytes` bytes and every index of `entries` entries is kept exactly. -/
structure IndexWords.ExactTo (w : IndexWords) (bytes entries : Nat) : Prop where
  off : ∀ n : Nat, n ≤ bytes → w.off n = n
  entry : ∀ n : Nat, n ≤ entries → w.entry n = n

theorem IndexWords.unbounded_exactTo (bytes entries : Nat) :
    IndexWords.unbounded.ExactTo bytes entries :=
  ⟨fun _ _ => rfl, fun _ _ => rfl⟩

/-- `Int32` holds offsets below 2^31, `Int16` indices below 2^15. -/
theorem IndexWords.packed_exactTo {bytes entries : Nat} (hb : bytes < 2 ^ 31)
    (he : entries ≤ 32767) : IndexWords.packed.ExactTo bytes entries := by
  refine ⟨fun n hn => ?_, fun n hn => ?_⟩
  · simp only [IndexWords.packed]
    exact Int.bmod_eq_of_le (by omega) (by omega)
  · simp only [IndexWords.packed]
    exact Int.bmod_eq_of_le (by omega) (by omega)

namespace Headers

/-! ## Text in the blob -/

/-- `text` stands in `buf` where an offset and a length say. -/
def Holds (buf : Bytes) (off len : Int) (text : Bytes) : Prop :=
  ∃ a : Nat, off = a ∧ len = text.length ∧ a ≤ buf.length ∧ text <+: buf.drop a

theorem Holds.append {buf text : Bytes} {off len : Int} (h : Holds buf off len text)
    (more : Bytes) : Holds (buf ++ more) off len text := by
  obtain ⟨a, hoff, hlen, ha, hpre⟩ := h
  refine ⟨a, hoff, hlen, by rw [List.length_append]; omega, ?_⟩
  rw [List.drop_append_of_le_length ha]
  exact hpre.trans (List.prefix_append _ _)

theorem Holds.new (buf text more : Bytes) :
    Holds (buf ++ text ++ more) buf.length text.length text :=
  ⟨buf.length, rfl, rfl, by simp, by simp⟩

theorem Holds.slice_eq {buf text : Bytes} {off len : Int} (h : Holds buf off len text) :
    slice buf off.toNat (off + len).toNat = text := by
  obtain ⟨a, rfl, rfl, -, hpre⟩ := h
  unfold slice
  rw [show ((a : Int) + (text.length : Int)).toNat - (a : Int).toNat = text.length from by omega,
    Int.toNat_natCast]
  exact (List.prefix_iff_eq_take.mp hpre).symm

theorem Holds.getD {buf text : Bytes} {off len : Int} (h : Holds buf off len text) {j : Nat}
    (hj : j < text.length) : buf.getD (off + j).toNat 0 = text.getD j 0 := by
  obtain ⟨a, rfl, -, -, more, hmore⟩ := h
  rw [show ((a : Int) + (j : Int)).toNat = a + j from by omega, List.getD_eq_getElem?_getD,
    ← List.getElem?_drop, ← hmore, List.getElem?_append_left hj, ← List.getD_eq_getElem?_getD]

/-- `e` is the entry of `name` and `value`. -/
def EntryOf (buf : Bytes) (e : IndexEntry) (entry : Bytes × Bytes) : Prop :=
  Holds buf e.nameOff e.nameLen entry.1 ∧ Holds buf e.valueOff e.valueLen entry.2

/-! ## The relation -/

/-- The store `h` stands for the map `m` of folded names. -/
structure Refines (h : Headers) (m : InsertionMap Bytes Bytes) : Prop where
  count : h.idx.length = m.entries.length
  entries : ∀ (i : Nat) (entry : Bytes × Bytes), m.entries[i]? = some entry →
    ∃ e, h.idx[i]? = some e ∧ EntryOf h.buf e entry
  folded : ∀ k ∈ m.keys, asciiLowercase k = k
  known : ∀ kid : KnownHeader, h.knownIndex kid = m.indexOf? kid.name
  present : ∀ k ∈ m.keys, h.present &&& presenceBit k ≠ 0
  /-- The raw stores of `_set_bytes` stay inside what was reserved. -/
  bufRoom : h.buf.length ≤ h.bufCapacity
  idxRoom : 4 * h.idx.length ≤ h.idxCapacity

theorem empty_refines : Refines empty InsertionMap.empty := by
  refine ⟨rfl, fun i entry h => ?_, fun k hk => ?_, fun kid => rfl, fun k hk => ?_,
    Nat.le_refl _, Nat.le_refl _⟩
  · cases h
  · cases hk
  · cases hk

section Lookups

variable {h : Headers} {m : InsertionMap Bytes Bytes}

theorem Refines.getD_entry (hr : Refines h m) {i : Nat} {entry : Bytes × Bytes}
    (hi : m.entries[i]? = some entry) : EntryOf h.buf (h.idx.getD i noEntry) entry := by
  obtain ⟨e, he, hof⟩ := hr.entries i entry hi
  rw [List.getD_eq_getElem?_getD, he]
  exact hof

theorem Refines.valueSpan (hr : Refines h m) {i : Nat} {entry : Bytes × Bytes}
    (hi : m.entries[i]? = some entry) : h.valueSpan i = entry.2 :=
  (hr.getD_entry hi).2.slice_eq

theorem Refines.nameSpan (hr : Refines h m) {i : Nat} {entry : Bytes × Bytes}
    (hi : m.entries[i]? = some entry) : h.nameSpan i = entry.1 :=
  (hr.getD_entry hi).1.slice_eq

theorem nameMatches_eq {h : Headers} {i : Nat} {name : Bytes}
    (hof : Holds h.buf (h.idx.getD i noEntry).nameOff (h.idx.getD i noEntry).nameLen name)
    (probe : Bytes) : h.nameMatches i probe = (name == asciiLowercase probe) := by
  have hlen : (h.idx.getD i noEntry).nameLen = name.length := by
    obtain ⟨a, -, hlen, -⟩ := hof
    exact hlen
  rw [Bool.eq_iff_iff, beq_iff_eq]
  unfold Headers.nameMatches
  dsimp only
  rw [hlen]
  split
  · rename_i hne
    refine ⟨fun h => ?_, fun h => ?_⟩
    · cases h
    · exact absurd (by rw [h, length_asciiLowercase]) hne
  · rename_i heq
    have heq' : name.length = probe.length := by omega
    rw [List.all_eq_true]
    refine ⟨fun hall => ?_, fun hname j hj => ?_⟩
    · apply List.ext_getElem (by simpa using heq')
      intro j h1 h2
      have hj := hall j (List.mem_range.mpr (by omega))
      rw [hof.getD h1, asciiLowerByte_getD probe j (by omega), beq_iff_eq,
        List.getD_eq_getElem _ _ h1, List.getD_eq_getElem _ _ h2] at hj
      exact hj
    · have hj' := List.mem_range.mp hj
      rw [hof.getD (by omega), asciiLowerByte_getD probe j hj', hname]
      exact beq_self_eq_true _

theorem Refines.nameMatches (hr : Refines h m) {i : Nat} {entry : Bytes × Bytes}
    (hi : m.entries[i]? = some entry) (probe : Bytes) :
    h.nameMatches i probe = (entry.1 == asciiLowercase probe) :=
  nameMatches_eq (hr.getD_entry hi).1 probe

theorem Refines.findUnknown (hr : Refines h m) (key : Bytes) :
    h.findUnknown key = m.indexOf? (asciiLowercase key) := by
  unfold Headers.findUnknown
  split
  · -- a clear bit: no key of the map folds like this one
    rename_i hclear
    refine (InsertionMap.indexOf?_eq_none.mpr fun hmem => ?_).symm
    have hset := hr.present _ hmem
    rw [presenceBit_asciiLowercase] at hset
    exact hset hclear
  · have hkey : ∀ i, i < h.count →
        h.nameMatches i key = (m.keys[i]? == some (asciiLowercase key)) := by
      intro i hi
      have hlt : i < m.entries.length := by rw [← hr.count]; exact hi
      have hentry := List.getElem?_eq_getElem hlt
      rw [hr.nameMatches hentry]
      simp [InsertionMap.keys, hentry]
    cases hf : m.indexOf? (asciiLowercase key) with
    | none =>
      rw [List.find?_eq_none]
      intro i hi hmatch
      rw [hkey i (List.mem_range.mp hi), beq_iff_eq] at hmatch
      rw [InsertionMap.indexOf?_eq_some.mpr hmatch] at hf
      cases hf
    | some i =>
      have hat := InsertionMap.indexOf?_eq_some.mp hf
      have hlt : i < h.count := by
        show i < h.idx.length
        rw [hr.count]
        exact InsertionMap.indexOf?_lt hf
      rw [List.find?_range_eq_some]
      refine ⟨?_, List.mem_range.mpr hlt, fun j hj => ?_⟩
      · rw [hkey i hlt, hat]
        exact beq_self_eq_true _
      · rw [hkey j (by omega)]
        have hne : m.keys[j]? ≠ some (asciiLowercase key) := by
          intro hj'
          have := InsertionMap.indexOf?_eq_some.mpr hj'
          rw [hf, Option.some_inj] at this
          omega
        simpa using hne

theorem Refines.find (hr : Refines h m) (key : Bytes) :
    h.find key = m.indexOf? (asciiLowercase key) := by
  unfold Headers.find
  cases hk : knownHeaderId key with
  | none => exact hr.findUnknown key
  | some kid =>
    show h.knownIndex kid = _
    rw [hr.known, knownHeaderId_eq_some.mp hk]

theorem Refines.get (hr : Refines h m) (key : Bytes) :
    h.get key = m.get? (asciiLowercase key) := by
  rw [InsertionMap.get?_eq]
  unfold Headers.get
  rw [hr.find]
  cases hf : m.indexOf? (asciiLowercase key) with
  | none => rfl
  | some i =>
    have hentry := List.getElem?_eq_getElem (InsertionMap.indexOf?_lt hf)
    rw [Option.map_some, Option.bind_some, hr.valueSpan hentry]
    show _ = m.entries[i]?.map Prod.snd
    rw [hentry]
    rfl

theorem Refines.contains (hr : Refines h m) (key : Bytes) :
    h.contains key = m.contains (asciiLowercase key) := by
  unfold InsertionMap.contains Headers.contains
  rw [← hr.get, Headers.get, Option.isSome_map]

theorem Refines.count_eq (hr : Refines h m) : h.count = m.size := hr.count

theorem Refines.keys (hr : Refines h m) : h.keys = m.keys := by
  unfold Headers.keys InsertionMap.keys
  apply List.ext_getElem?
  intro i
  rw [List.getElem?_map, List.getElem?_map]
  rcases Nat.lt_or_ge i h.count with hlt | hge
  · have hentry := List.getElem?_eq_getElem (show i < m.entries.length by rw [← hr.count]; exact hlt)
    rw [List.getElem?_range hlt, hentry, Option.map_some, Option.map_some, hr.nameSpan hentry]
  · have hge' : m.entries.length ≤ i := by rw [← hr.count]; exact hge
    rw [List.getElem?_eq_none (by simpa using hge), List.getElem?_eq_none hge']
    rfl

end Lookups

/-! ## `_set_bytes` -/

/-- Eight lanes at a time or one byte at a time, the name's copy is its folding. -/
theorem lowercaseLanes_eq (turns : Nat) (src : Bytes) :
    lowercaseLanes turns src = asciiLowercase src := by
  induction turns generalizing src with
  | zero => rfl
  | succ turns ih =>
    have hlane : (fun w : UInt8 => if w ≥ 0x41 && w ≤ 0x5A then w ||| 0x20 else w)
        = asciiLowerByte := by
      funext w
      simp [asciiLowerByte]
    unfold lowercaseLanes
    split
    · rw [ih, hlane, asciiLowercase, asciiLowercase, ← List.map_append, List.take_append_drop]
    · rfl

/-- The keys of the map, when a write finds its key there. -/
theorem keys_set_of_some {m : InsertionMap Bytes Bytes} {key : Bytes} {i : Nat} (value : Bytes)
    (hi : m.indexOf? key = some i) : (m.set key value).keys = m.keys := by
  unfold InsertionMap.keys
  rw [InsertionMap.entries_set_of_some value hi]
  apply List.ext_getElem?
  intro j
  rw [List.getElem?_map, List.getElem?_map, List.getElem?_modify]
  cases m.entries[j]? with
  | none => rfl
  | some entry =>
    show some (if i = j then (entry.1, value) else entry).1 = some entry.1
    split <;> rfl

theorem le_grownBuf (h : Headers) (needed : Nat) : needed ≤ h.grownBuf needed := by
  unfold grownBuf
  dsimp only
  split
  · split <;> omega
  · omega

/-- What an overwrite leaves: the blob and one entry's value words. -/
theorem overwriteValue_refines {h : Headers} {m : InsertionMap Bytes Bytes} (hr : Refines h m)
    {key value : Bytes} (name : Bytes) {i : Nat} {w : IndexWords} (hi : m.indexOf? key = some i)
    (hoff : w.off h.buf.length = h.buf.length) (hlen : w.off value.length = value.length) :
    Refines (h.overwriteValue w i name value) (m.set key value) := by
  have hset := InsertionMap.entries_set_of_some value hi
  have hkeys := keys_set_of_some value hi
  refine ⟨?_, fun j entry hj => ?_, ?_, fun kid => ?_, ?_, ?_, ?_⟩
  · rw [hset, List.length_modify]
    show (h.idx.modify i _).length = _
    rw [List.length_modify]
    exact hr.count
  · rw [hset, List.getElem?_modify] at hj
    obtain ⟨old, hold, rfl⟩ := Option.map_eq_some_iff.mp hj
    obtain ⟨e, he, hname, hvalue⟩ := hr.entries j old hold
    refine ⟨_, by
      show (h.idx.modify i _)[j]? = _
      rw [List.getElem?_modify, he]
      rfl, ?_⟩
    by_cases hij : i = j
    · -- the overwritten entry: its name stays, its value is what the blob now ends in
      dsimp only
      rw [if_pos hij, if_pos hij]
      refine ⟨hname.append value, ?_⟩
      have hnew := Holds.new h.buf value []
      rw [List.append_nil] at hnew
      dsimp only
      rw [hoff, hlen]
      exact hnew
    · dsimp only
      rw [if_neg hij, if_neg hij]
      exact ⟨hname.append value, hvalue.append value⟩
  · rw [hkeys]
    exact hr.folded
  · unfold InsertionMap.indexOf?
    rw [hkeys]
    exact hr.known kid
  · rw [hkeys]
    exact hr.present
  · show (h.buf ++ value).length ≤ h.grownBuf (h.buf.length + value.length + name.length)
    have := h.le_grownBuf (h.buf.length + value.length + name.length)
    rw [List.length_append]
    omega
  · show 4 * (h.idx.modify i _).length ≤ _
    rw [List.length_modify]
    exact hr.idxRoom

theorem keys_set_of_none {m : InsertionMap Bytes Bytes} {key : Bytes} (value : Bytes)
    (hnone : m.indexOf? key = none) : (m.set key value).keys = m.keys ++ [key] := by
  unfold InsertionMap.keys
  rw [InsertionMap.entries_set_of_none value hnone, List.map_append, List.map_singleton]

/-- The known-name table after a new entry. -/
theorem insertEntry_known {h : Headers} {m : InsertionMap Bytes Bytes} (hr : Refines h m)
    {name : Bytes} (value : Bytes) {w : IndexWords} (hnone : m.indexOf? (asciiLowercase name) = none)
    (hentry : w.entry h.count = h.count) (kid : KnownHeader) :
    (h.insertEntry w name value (knownHeaderId name)).knownIndex kid
      = (m.set (asciiLowercase name) value).indexOf? kid.name := by
  have hkeys := keys_set_of_none value hnone
  have hcount : h.count = m.keys.length := by
    show h.idx.length = _
    rw [hr.count]
    simp [InsertionMap.keys]
  -- a name that is not the new one keeps its index
  have hother : kid.name ≠ asciiLowercase name →
      (m.set (asciiLowercase name) value).indexOf? kid.name = tableIndex (h.known kid) := by
    intro hne
    refine Eq.trans ?_ (hr.known kid).symm
    apply Option.ext
    intro i
    rw [InsertionMap.indexOf?_eq_some, InsertionMap.indexOf?_eq_some, hkeys]
    rcases Nat.lt_trichotomy i m.keys.length with hlt | heq | hgt
    · rw [List.getElem?_append_left hlt]
    · subst heq
      have hne' : ¬ asciiLowercase name = kid.name := fun h => hne h.symm
      simp [hne']
    · rw [List.getElem?_eq_none (by simp; omega), List.getElem?_eq_none (by omega)]
  unfold knownIndex insertEntry
  cases hk : knownHeaderId name with
  | none => exact (hother fun h => knownHeaderId_eq_none.mp hk kid h.symm).symm
  | some k =>
    have hname := knownHeaderId_eq_some.mp hk
    dsimp only
    by_cases hkk : kid = k
    · subst hkk
      rw [Function.update_self, hentry]
      have hnew : (m.set (asciiLowercase name) value).keys[h.count]? = some kid.name := by
        rw [hkeys, ← hname, hcount, List.getElem?_concat_length]
      rw [InsertionMap.indexOf?_eq_some.mpr hnew]
      simp [tableIndex]
    · rw [Function.update_of_ne hkk]
      exact (hother fun h => hkk (KnownHeader.name_injective (h.trans hname))).symm

/-- A presence bit that is set stays set. -/
theorem present_or_left {present bit new : UInt64} (h : present &&& bit ≠ 0) :
    (present ||| new) &&& bit ≠ 0 := by
  intro hz
  apply h
  rw [← UInt64.toBitVec_inj] at hz ⊢
  simp only [UInt64.toBitVec_and, UInt64.toBitVec_or] at hz ⊢
  rw [BitVec.and_or_distrib_right] at hz
  exact (BitVec.or_eq_zero_iff.mp hz).1

theorem present_or_right {present bit : UInt64} (h : bit ≠ 0) : (present ||| bit) &&& bit ≠ 0 := by
  intro hz
  apply h
  rw [← UInt64.toBitVec_inj] at hz ⊢
  simp only [UInt64.toBitVec_and, UInt64.toBitVec_or] at hz
  rw [BitVec.and_or_distrib_right, BitVec.and_self] at hz
  exact (BitVec.or_eq_zero_iff.mp hz).2

/-- What an insertion leaves: value and folded name at the blob's end, one more entry. -/
theorem insertEntry_refines {h : Headers} {m : InsertionMap Bytes Bytes} (hr : Refines h m)
    {name : Bytes} (value : Bytes) {w : IndexWords} (hnone : m.indexOf? (asciiLowercase name) = none)
    (hw : w.ExactTo (h.buf.length + value.length + name.length) h.count) :
    Refines (h.insertEntry w name value (knownHeaderId name))
      (m.set (asciiLowercase name) value) := by
  have hset := InsertionMap.entries_set_of_none value hnone
  have hkeys := keys_set_of_none value hnone
  have hknown := insertEntry_known hr value hnone (hw.entry _ (Nat.le_refl _))
  refine ⟨?_, fun j entry hj => ?_, fun k hk => ?_, hknown, fun k hk => ?_, ?_, ?_⟩
  · unfold insertEntry
    rw [hset, List.length_append, List.length_append, hr.count]
    rfl
  · unfold insertEntry
    rw [lowercaseLanes_eq]
    rw [hset] at hj
    rcases Nat.lt_or_ge j m.entries.length with hlt | hge
    · rw [List.getElem?_append_left hlt] at hj
      obtain ⟨e, he, hname, hvalue⟩ := hr.entries j entry hj
      refine ⟨e, ?_, ?_⟩
      · rw [List.getElem?_append_left (by rw [hr.count]; exact hlt)]
        exact he
      · exact ⟨(hname.append value).append _, (hvalue.append value).append _⟩
    · -- the new entry
      have hj0 : j = m.entries.length := by
        have := (List.getElem?_eq_some_iff.mp hj).1
        simp at this
        omega
      subst hj0
      rw [List.getElem?_concat_length, Option.some_inj] at hj
      subst hj
      refine ⟨_, by rw [← hr.count, List.getElem?_concat_length], ?_, ?_⟩
      · have hnew := Holds.new (h.buf ++ value) (asciiLowercase name) []
        rw [List.append_nil, List.length_append, length_asciiLowercase] at hnew
        dsimp only
        rw [hw.off _ (by omega), hw.off _ (by omega)]
        exact hnew
      · have hnew := Holds.new h.buf value (asciiLowercase name)
        dsimp only
        rw [hw.off _ (by omega), hw.off _ (by omega)]
        exact hnew
  · rw [hkeys, List.mem_append, List.mem_singleton] at hk
    rcases hk with hk | rfl
    · exact hr.folded k hk
    · exact asciiLowercase_idem name
  · rw [hkeys, List.mem_append, List.mem_singleton] at hk
    show (h.present ||| presenceBit name) &&& presenceBit k ≠ 0
    rcases hk with hk | rfl
    · exact present_or_left (hr.present k hk)
    · rw [presenceBit_asciiLowercase]
      exact present_or_right (presenceBit_ne_zero name)
  · have := h.le_grownBuf (h.buf.length + value.length + name.length)
    unfold insertEntry
    simp only [List.length_append, lowercaseLanes_eq, length_asciiLowercase]
    exact this
  · have := hr.idxRoom
    unfold insertEntry grownIdx
    simp only [List.length_append, List.length_singleton]
    split <;> omega

/-- The bytes of a call are all in the blob it leaves, and its entries in the index. -/
theorem setBytes_sizes (w : IndexWords) (h : Headers) (name value : Bytes) :
    h.buf.length + value.length ≤ (h.setBytes w name value).buf.length ∧
      h.count ≤ (h.setBytes w name value).count ∧
      (h.find name = none →
        h.buf.length + value.length + name.length = (h.setBytes w name value).buf.length) := by
  unfold setBytes setBytesKnown find
  cases h.findClassified name (knownHeaderId name) with
  | some i => simp [overwriteValue, count]
  | none => simp [insertEntry, count, lowercaseLanes_eq]; omega

theorem setBytes_bounds (w : IndexWords) (h : Headers) (name value : Bytes) :
    (h.setBytes w name value).buf.length ≤ h.buf.length + value.length + name.length ∧
      (h.setBytes w name value).count ≤ h.count + 1 := by
  unfold setBytes setBytesKnown
  cases h.findClassified name (knownHeaderId name) with
  | some i => simp [overwriteValue, count]
  | none => simp [insertEntry, count, lowercaseLanes_eq]; omega

/-- **`set_bytes` is the map's write.** -/
theorem setBytes_refines {h : Headers} {m : InsertionMap Bytes Bytes} (hr : Refines h m)
    {name value : Bytes} {w : IndexWords}
    (hw : w.ExactTo (h.setBytes w name value).buf.length (h.setBytes w name value).count) :
    Refines (h.setBytes w name value) (m.set (asciiLowercase name) value) := by
  obtain ⟨hbuf, hcount, hnew⟩ := setBytes_sizes w h name value
  have hfind := hr.find name
  unfold Headers.find at hfind hnew
  rw [hfind] at hnew
  cases hi : m.indexOf? (asciiLowercase name) with
  | some i =>
    have heq : h.setBytes w name value = h.overwriteValue w i name value := by
      unfold setBytes setBytesKnown
      rw [hfind, hi]
    have hover := overwriteValue_refines hr name hi (hw.off _ (by omega))
      (hw.off value.length (by omega))
    rw [heq]
    exact hover
  | none =>
    have heq : h.setBytes w name value = h.insertEntry w name value (knownHeaderId name) := by
      unfold setBytes setBytesKnown
      rw [hfind, hi]
    have hbytes := hnew hi
    have hins := insertEntry_refines hr (w := w) value hi
      ⟨fun n hn => hw.off n (by omega), fun n hn => hw.entry n (by omega)⟩
    rw [heq]
    exact hins

/-! ## `set_int` -/

theorem writeDigits_eq (pos n : Nat) (digits : Bytes) (hn : n < 10 ^ pos) :
    writeDigits pos n digits
      = ((Nat.digits 10 n).map fun d => UInt8.ofNat (0x30 + d)).reverse ++ digits := by
  induction pos generalizing n digits with
  | zero =>
    have hz : n = 0 := by omega
    subst hz
    simp [writeDigits]
  | succ pos ih =>
    unfold writeDigits
    split
    · rename_i hpos
      have hdiv : n / 10 < 10 ^ pos := by
        rw [Nat.div_lt_iff_lt_mul (by decide), ← Nat.pow_succ]
        exact hn
      rw [ih _ _ hdiv, Nat.digits_def' (by decide) hpos]
      simp
    · have hz : n = 0 := by omega
      subst hz
      simp

/-- Twenty bytes are room for every integer: the text is the decimal one, of 0 for a
negative value. -/
theorem intDigits_eq (value : Int64) : intDigits value = decimal value.toInt.toNat := by
  have hlt := value.toInt_lt
  unfold intDigits decimal
  dsimp only
  by_cases hneg : value < 0
  · have hneg' : value.toInt < 0 := Int64.lt_iff_toInt_lt.mp hneg
    rw [if_pos hneg, if_pos rfl, if_pos (by omega)]
  · have hpos : ¬ value.toInt < 0 := fun h => hneg (Int64.lt_iff_toInt_lt.mpr h)
    rw [if_neg hneg]
    by_cases hz : value = 0
    · subst hz
      rfl
    · have hz' : ¬ value.toInt.toNat = 0 := by
        intro h
        exact hz (Int64.toInt_inj.mp (by simp; omega))
      rw [if_neg hz, if_neg hz', writeDigits_eq 20 _ _ (by omega), List.append_nil]

theorem setInt_eq (w : IndexWords) (h : Headers) (key : Bytes) (value : Int64) :
    h.setInt w key value = h.setBytes w key (decimal value.toInt.toNat) := by
  unfold setInt setIntKnown setBytes
  rw [intDigits_eq]

/-! ## `pop` -/

section Rebuild

variable {h : Headers} {m : InsertionMap Bytes Bytes} {w : IndexWords}

/-- The table after the rebuild has passed the first `n` entries. -/
def rebuilt (w : IndexWords) (h : Headers) (n : Nat) : KnownHeader → Int :=
  (List.range n).foldl
    (fun known e =>
      match knownHeaderId (h.nameSpan e) with
      | some kid => Function.update known kid (w.entry e)
      | none => known)
    fun _ => -1

theorem rebuilt_succ (n : Nat) :
    rebuilt w h (n + 1) = match knownHeaderId (h.nameSpan n) with
      | some kid => Function.update (rebuilt w h n) kid (w.entry n)
      | none => rebuilt w h n := by
  unfold rebuilt
  rw [List.range_succ, List.foldl_append]
  rfl

/-- The step of the rebuild: the table names the entries passed, and no others. -/
theorem rebuilt_index (hspan : ∀ i entry, m.entries[i]? = some entry → h.nameSpan i = entry.1)
    (hfolded : ∀ k ∈ m.keys, asciiLowercase k = k)
    (hexact : ∀ n : Nat, n < m.size → w.entry n = n) (n : Nat) (hn : n ≤ m.size)
    (kid : KnownHeader) (i : Nat) :
    tableIndex (rebuilt w h n kid) = some i ↔ i < n ∧ m.keys[i]? = some kid.name := by
  induction n generalizing kid i with
  | zero => simp [rebuilt, tableIndex]
  | succ n ih =>
    have hlt : n < m.entries.length := hn
    have hentry := List.getElem?_eq_getElem hlt
    have hkey : m.keys[n]? = some (h.nameSpan n) := by
      rw [hspan n _ hentry]
      simp [InsertionMap.keys, hentry]
    have hself := hfolded _ (List.mem_of_getElem? hkey)
    have hold := ih (by omega) kid i
    -- entry `n` is not `kid`'s: nothing about `kid` changes
    have hskip : h.nameSpan n ≠ kid.name →
        (tableIndex (rebuilt w h n kid) = some i ↔ i < n + 1 ∧ m.keys[i]? = some kid.name) := by
      intro hne
      rw [hold]
      refine ⟨fun h => ⟨by omega, h.2⟩, fun h => ⟨?_, h.2⟩⟩
      rcases Nat.lt_succ_iff_lt_or_eq.mp h.1 with hlt | heq
      · exact hlt
      · rw [heq, hkey, Option.some_inj] at h
        exact absurd h.2 hne
    rw [rebuilt_succ]
    cases hk : knownHeaderId (h.nameSpan n) with
    | none => exact hskip fun h => knownHeaderId_eq_none.mp hk kid (by rw [h, asciiLowercase_name])
    | some k =>
      have hname := knownHeaderId_eq_some.mp hk
      rw [hself] at hname
      dsimp only
      by_cases hkk : kid = k
      · subst hkk
        rw [Function.update_self, hexact n (by omega)]
        simp only [tableIndex, show ¬ (n : Int) < 0 from by omega, if_false, Int.toNat_natCast,
          Option.some_inj]
        rw [hname] at hkey
        refine ⟨?_, fun h => ?_⟩
        · rintro rfl
          exact ⟨by omega, hkey⟩
        · have h1 := InsertionMap.indexOf?_eq_some.mpr hkey
          rw [InsertionMap.indexOf?_eq_some.mpr h.2, Option.some_inj] at h1
          exact h1.symm
      · rw [Function.update_of_ne hkk]
        exact hskip fun h => hkk (KnownHeader.name_injective (h.symm.trans hname))

end Rebuild

/-- **`pop` is the map's erasure.** -/
theorem pop_refines {h : Headers} {m : InsertionMap Bytes Bytes} (hr : Refines h m) {key : Bytes}
    {w : IndexWords} (hw : w.ExactTo (h.pop w key).buf.length (h.pop w key).count) :
    Refines (h.pop w key) (m.erase (asciiLowercase key)) := by
  have hfind := hr.find key
  unfold pop at hw ⊢
  rw [hfind] at hw ⊢
  cases hi : m.indexOf? (asciiLowercase key) with
  | none =>
    rw [InsertionMap.erase_of_none hi]
    exact hr
  | some i =>
    rw [hi] at hw
    dsimp only at hw ⊢
    have herase := InsertionMap.entries_erase_of_some hi
    have hlen : (h.idx.eraseIdx i).length = (m.erase (asciiLowercase key)).entries.length := by
      rw [herase, List.length_eraseIdx, List.length_eraseIdx, hr.count]
    have hentries : ∀ (j : Nat) (entry : Bytes × Bytes),
        (m.erase (asciiLowercase key)).entries[j]? = some entry →
        ∃ e, (h.idx.eraseIdx i)[j]? = some e ∧ EntryOf h.buf e entry := by
      intro j entry hj
      rw [herase, List.getElem?_eraseIdx] at hj
      rw [List.getElem?_eraseIdx]
      by_cases hji : j < i
      · rw [if_pos hji] at hj ⊢
        exact hr.entries j entry hj
      · rw [if_neg hji] at hj ⊢
        exact hr.entries (j + 1) entry hj
    have hfolded : ∀ k ∈ (m.erase (asciiLowercase key)).keys, asciiLowercase k = k :=
      fun k hk => hr.folded k (InsertionMap.mem_keys_of_erase hk)
    have hspan : ∀ j entry, (m.erase (asciiLowercase key)).entries[j]? = some entry →
        Headers.nameSpan { h with idx := h.idx.eraseIdx i } j = entry.1 := by
      intro j entry hj
      obtain ⟨e, he, hof, -⟩ := hentries j entry hj
      unfold Headers.nameSpan
      dsimp only
      rw [List.getD_eq_getElem?_getD, he]
      exact hof.slice_eq
    refine ⟨hlen, hentries, hfolded, fun kid => ?_, fun k hk => ?_, hr.bufRoom, ?_⟩
    · -- the rebuilt table is the index of the shorter map
      apply Option.ext
      intro j
      rw [InsertionMap.indexOf?_eq_some]
      have hsize : (m.erase (asciiLowercase key)).size = (h.idx.eraseIdx i).length := hlen.symm
      have hindex := rebuilt_index (w := w) hspan hfolded
        (fun n hn => hw.entry n (by rw [hsize] at hn; exact Nat.le_of_lt hn)) _ (Nat.le_refl _)
        kid j
      rw [hsize] at hindex
      refine hindex.trans ⟨fun h => h.2, fun h => ⟨?_, h⟩⟩
      rw [hlen]
      simpa [InsertionMap.keys] using (List.getElem?_eq_some_iff.mp h).1
    · exact hr.present k (InsertionMap.mem_keys_of_erase hk)
    · have := hr.idxRoom
      have := List.length_eraseIdx_le h.idx i
      show 4 * (h.idx.eraseIdx i).length ≤ h.idxCapacity
      omega

theorem reserve_refines {h : Headers} {m : InsertionMap Bytes Bytes} (hr : Refines h m)
    (bytes entries : Int) : Refines (h.reserve bytes entries) m :=
  ⟨hr.count, hr.entries, hr.folded, hr.known, hr.present,
    Nat.le_trans hr.bufRoom (Nat.le_max_left _ _), Nat.le_trans hr.idxRoom (Nat.le_max_left _ _)⟩

/-! ## Entries written later

A store grows past what its index words hold without harm to the entries it had before: they are
read from where they stand. -/

/-- The store `h'` has the entries of `h` as they were, and maybe more. -/
structure Extends (h h' : Headers) : Prop where
  buf : h.buf <+: h'.buf
  idx : h.idx <+: h'.idx
  present : ∀ key, h.present &&& presenceBit key ≠ 0 → h'.present &&& presenceBit key ≠ 0
  known : ∀ kid i, h.knownIndex kid = some i → h'.knownIndex kid = some i

theorem Extends.refl (h : Headers) : Extends h h :=
  ⟨List.prefix_rfl, List.prefix_rfl, fun _ hkey => hkey, fun _ _ hkid => hkid⟩

section Extends

variable {base h : Headers} {m : InsertionMap Bytes Bytes} {name : Bytes}

theorem Extends.entry (hx : Extends base h) (hr : Refines base m) {i : Nat} {entry : Bytes × Bytes}
    (hi : m.entries[i]? = some entry) : EntryOf h.buf (h.idx.getD i noEntry) entry := by
  obtain ⟨e, he, hname, hvalue⟩ := hr.entries i entry hi
  obtain ⟨more, hmore⟩ := hx.buf
  obtain ⟨behind, hbehind⟩ := hx.idx
  have hat : h.idx.getD i noEntry = e := by
    rw [← hbehind, List.getD_eq_getElem?_getD,
      List.getElem?_append_left (List.getElem?_eq_some_iff.mp he).1, he]
    rfl
  rw [hat, ← hmore]
  exact ⟨hname.append more, hvalue.append more⟩

/-- A name of the base is found where it was. -/
theorem Extends.find_eq (hx : Extends base h) (hr : Refines base m) {key : Bytes} {i : Nat}
    (hi : base.find key = some i) : h.find key = some i := by
  unfold Headers.find at hi ⊢
  cases hk : knownHeaderId key with
  | some kid =>
    rw [hk] at hi
    exact hx.known kid i hi
  | none =>
    rw [hk] at hi
    have hmap := hr.findUnknown key
    rw [show base.findUnknown key = some i from hi] at hmap
    have hlt : i < m.entries.length := InsertionMap.indexOf?_lt hmap.symm
    have hcount : base.idx.length ≤ h.idx.length := hx.idx.length_le
    have hentries := hr.count
    -- the entries in front of it are the base's too
    have hmatch : ∀ j, j ≤ i → h.nameMatches j key = base.nameMatches j key := by
      intro j hj
      have hentry := List.getElem?_eq_getElem (show j < m.entries.length by omega)
      rw [nameMatches_eq (hx.entry hr hentry).1, hr.nameMatches hentry]
    show h.findUnknown key = some i
    have hfound : base.findUnknown key = some i := hi
    unfold Headers.findUnknown at hfound ⊢
    split at hfound
    · cases hfound
    · next hbit =>
      obtain ⟨hat, -, hbefore⟩ := List.find?_range_eq_some.mp hfound
      rw [if_neg (hx.present key hbit), List.find?_range_eq_some]
      refine ⟨by rw [hmatch i (Nat.le_refl i)]; exact hat, List.mem_range.mpr ?_, ?_⟩
      · show i < h.idx.length
        omega
      · intro j hj
        rw [hmatch j (Nat.le_of_lt hj)]
        exact hbefore j hj

/-- **What a base holds is read from every store that extends it.** -/
theorem Extends.get_eq (hx : Extends base h) (hr : Refines base m) {key value : Bytes}
    (hkey : m.get? (asciiLowercase key) = some value) : h.get key = some value := by
  have hget := hr.get key
  rw [hkey] at hget
  unfold Headers.get at hget ⊢
  obtain ⟨i, hi, hvalue⟩ := Option.map_eq_some_iff.mp hget
  have hmap := hr.find key
  rw [hi] at hmap
  have hentry := List.getElem?_eq_getElem (InsertionMap.indexOf?_lt hmap.symm)
  rw [hx.find_eq hr hi, Option.map_some, ← hvalue, hr.valueSpan hentry]
  exact congrArg some (hx.entry hr hentry).2.slice_eq

/-- A name that the base does not hold is found behind its entries. -/
theorem Extends.le_of_find (hx : Extends base h) (hr : Refines base m)
    (hunknown : knownHeaderId name = none) (hnot : base.find name = none) {i : Nat}
    (hi : h.find name = some i) : base.count ≤ i := by
  by_contra hlt
  have hentry := List.getElem?_eq_getElem (show i < m.entries.length by rw [← hr.count]; exact not_le.mp hlt)
  unfold Headers.find at hi hnot
  rw [hunknown] at hi hnot
  have hat : h.nameMatches i name = true := by
    have hfound : h.findUnknown name = some i := hi
    unfold Headers.findUnknown at hfound
    split at hfound
    · cases hfound
    · exact (List.find?_range_eq_some.mp hfound).1
  rw [nameMatches_eq (hx.entry hr hentry).1, beq_iff_eq] at hat
  have hmap := hr.findUnknown name
  rw [show base.findUnknown name = none from hnot] at hmap
  refine absurd hmap.symm ?_
  rw [InsertionMap.indexOf?_eq_none, not_not, ← hat]
  exact List.mem_map_of_mem (List.mem_of_getElem? hentry)

/-- A new name leaves what was there. -/
theorem Extends.setBytes_new (hx : Extends base h) (w : IndexWords) (value : Bytes)
    (hnew : h.find name = none) : Extends base (h.setBytes w name value) := by
  have heq : h.setBytes w name value = h.insertEntry w name value (knownHeaderId name) := by
    unfold setBytes setBytesKnown
    rw [show h.findClassified name (knownHeaderId name) = none from hnew]
  rw [heq]
  constructor
  · exact hx.buf.trans ⟨value ++ lowercaseLanes name.length name, by simp [insertEntry]⟩
  · exact hx.idx.trans (List.prefix_append _ _)
  · exact fun key hkey => present_or_left (hx.present key hkey)
  · intro kid i hkid
    have hold := hx.known kid i hkid
    cases hk : knownHeaderId name with
    | none => exact hold
    | some kid' =>
      have hne : kid ≠ kid' := by
        rintro rfl
        unfold Headers.find at hnew
        rw [hk] at hnew
        rw [show h.knownIndex kid = none from hnew] at hold
        cases hold
      show tableIndex (Function.update h.known kid' _ kid) = some i
      rw [Function.update_of_ne hne]
      exact hold

/-- So does a write to an entry behind it. -/
theorem Extends.setBytes_behind (hx : Extends base h) (w : IndexWords) (value : Bytes) {i : Nat}
    (hi : h.find name = some i) (hbehind : base.count ≤ i) :
    Extends base (h.setBytes w name value) := by
  have heq : h.setBytes w name value = h.overwriteValue w i name value := by
    unfold setBytes setBytesKnown
    rw [show h.findClassified name (knownHeaderId name) = some i from hi]
  rw [heq]
  refine ⟨hx.buf.trans (List.prefix_append _ _), ?_, hx.present, hx.known⟩
  show base.idx <+: h.idx.modify i _
  rw [List.modify_eq_take_drop]
  exact (List.prefix_take_iff.mpr ⟨hx.idx, hbehind⟩).trans (List.prefix_append _ _)

end Extends

end Headers

end MojoHttp
