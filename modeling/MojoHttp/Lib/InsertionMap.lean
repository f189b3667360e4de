import Mathlib.Data.List.Nodup

/-!
# Insertion-ordered maps

A finite map that remembers the order its keys first came in: writing a key that is there
overwrites its value in place, writing a new one appends it. The keys are distinct by
construction (`InsertionMap.nodup`).

* **`indexOf?_eq_some`** — a key's index is the one position it stands at.
* **`get?_set_self` / `get?_set_of_ne`** — a write is read back, and touches no other key.
* **`entries_set_of_some` / `entries_set_of_none` / `entries_erase_of_some`** — the three
  writes as edits of the entry list at an index, which is how an array of entries does them.
-/

/-- A map in order of first insertion. -/
structure InsertionMap (κ ν : Type) where
  entries : List (κ × ν)
  nodup : (entries.map Prod.fst).Nodup

namespace InsertionMap

variable {κ ν : Type}

def empty : InsertionMap κ ν := ⟨[], List.nodup_nil⟩

def keys (m : InsertionMap κ ν) : List κ := m.entries.map Prod.fst

def size (m : InsertionMap κ ν) : Nat := m.entries.length

section Ops

variable [DecidableEq κ]

/-- The position of `k`'s entry. -/
def indexOf? (m : InsertionMap κ ν) (k : κ) : Option Nat := m.keys.idxOf? k

/-- The value of `k`. -/
def get? (m : InsertionMap κ ν) (k : κ) : Option ν :=
  (m.entries.find? (·.1 == k)).map Prod.snd

def contains (m : InsertionMap κ ν) (k : κ) : Bool := (m.get? k).isSome

/-- Overwrite `k`'s value where it stands. -/
def overwrite (entries : List (κ × ν)) (k : κ) (v : ν) : List (κ × ν) :=
  entries.map fun e => if e.1 = k then (e.1, v) else e

theorem map_fst_overwrite (entries : List (κ × ν)) (k : κ) (v : ν) :
    (overwrite entries k v).map Prod.fst = entries.map Prod.fst := by
  unfold overwrite
  rw [List.map_map]
  apply List.map_congr_left
  intro e _
  simp only [Function.comp_apply]
  split <;> rfl

/-- Write `k`: in place when it is there, at the end when it is not. -/
def set (m : InsertionMap κ ν) (k : κ) (v : ν) : InsertionMap κ ν :=
  if h : k ∈ m.entries.map Prod.fst then
    ⟨overwrite m.entries k v, by rw [map_fst_overwrite]; exact m.nodup⟩
  else
    ⟨m.entries ++ [(k, v)], by
      rw [List.map_append, List.map_singleton]
      exact List.nodup_append.mpr ⟨m.nodup, List.nodup_singleton _, fun a ha b hb => by
        rw [List.mem_singleton.mp hb]
        rintro rfl
        exact h ha⟩⟩

/-- Remove `k`; the entries behind it move down one. -/
def erase (m : InsertionMap κ ν) (k : κ) : InsertionMap κ ν :=
  ⟨m.entries.eraseP (·.1 == k), m.nodup.sublist (List.eraseP_sublist.map Prod.fst)⟩

/-! ## Indices -/

theorem indexOf?_eq_some {m : InsertionMap κ ν} {k : κ} {i : Nat} :
    m.indexOf? k = some i ↔ m.keys[i]? = some k := by
  unfold indexOf?
  rw [List.idxOf?_eq_some_iff]
  constructor
  · rintro ⟨hlt, heq, -⟩
    rw [List.getElem?_eq_getElem hlt]
    simpa using heq
  · intro h
    obtain ⟨hlt, heq⟩ := List.getElem?_eq_some_iff.mp h
    refine ⟨hlt, by simpa using heq, fun j hj hjk => ?_⟩
    have hjlt : j < m.keys.length := by omega
    have heq' : m.keys[j] = m.keys[i] := by rw [heq]; simpa using hjk
    exact absurd (m.nodup.getElem_inj_iff.mp heq') (by omega)

theorem indexOf?_eq_none {m : InsertionMap κ ν} {k : κ} : m.indexOf? k = none ↔ k ∉ m.keys := by
  simp [indexOf?]

theorem indexOf?_lt {m : InsertionMap κ ν} {k : κ} {i : Nat} (h : m.indexOf? k = some i) :
    i < m.size := by
  have hlt := (List.getElem?_eq_some_iff.mp (indexOf?_eq_some.mp h)).1
  simpa [keys, size] using hlt

theorem findIdx?_fst (m : InsertionMap κ ν) (k : κ) :
    m.entries.findIdx? (·.1 == k) = m.indexOf? k := by
  simp [indexOf?, keys, List.idxOf?, List.findIdx?_map, Function.comp_def]

/-- The value of `k` is the one at its index. -/
theorem get?_eq (m : InsertionMap κ ν) (k : κ) :
    m.get? k = (m.indexOf? k).bind fun i => m.entries[i]?.map Prod.snd := by
  unfold get?
  rw [List.find?_eq_bind_findIdx?_getElem?, findIdx?_fst]
  cases m.indexOf? k <;> rfl

theorem get?_eq_some {m : InsertionMap κ ν} {k : κ} {v : ν} :
    m.get? k = some v ↔ (k, v) ∈ m.entries := by
  rw [get?_eq, Option.bind_eq_some_iff]
  refine ⟨?_, fun h => ?_⟩
  · rintro ⟨i, hi, hv⟩
    obtain ⟨e, he, rfl⟩ := Option.map_eq_some_iff.mp hv
    have hkey := indexOf?_eq_some.mp hi
    rw [keys, List.getElem?_map, he, Option.map_some, Option.some_inj] at hkey
    rw [← hkey]
    exact List.mem_of_getElem? he
  · obtain ⟨i, hi⟩ := List.mem_iff_getElem?.mp h
    refine ⟨i, indexOf?_eq_some.mpr ?_, ?_⟩
    · rw [keys, List.getElem?_map, hi]
      rfl
    · rw [hi]
      rfl

/-! ## The writes as edits at an index -/

theorem entries_set_of_some {m : InsertionMap κ ν} {k : κ} {i : Nat} (v : ν)
    (h : m.indexOf? k = some i) :
    (m.set k v).entries = m.entries.modify i fun e => (e.1, v) := by
  have hk := indexOf?_eq_some.mp h
  have hmem : k ∈ m.entries.map Prod.fst := List.mem_of_getElem? hk
  unfold set
  rw [dif_pos hmem]
  apply List.ext_getElem?
  intro j
  unfold overwrite
  rw [List.getElem?_map, List.getElem?_modify]
  cases hj : m.entries[j]? with
  | none => rfl
  | some e =>
    have hkey : m.keys[j]? = some e.1 := by simp [keys, hj]
    by_cases hij : i = j
    · subst hij
      rw [hk, Option.some_inj] at hkey
      simp [hkey]
    · have hne : e.1 ≠ k := by
        rintro rfl
        have := indexOf?_eq_some.mpr hkey
        rw [h, Option.some_inj] at this
        exact hij this
      simp [hij, hne]

theorem entries_set_of_none {m : InsertionMap κ ν} {k : κ} (v : ν) (h : m.indexOf? k = none) :
    (m.set k v).entries = m.entries ++ [(k, v)] := by
  have hk : k ∉ m.entries.map Prod.fst := indexOf?_eq_none.mp h
  unfold set
  rw [dif_neg hk]

theorem entries_erase_of_some {m : InsertionMap κ ν} {k : κ} {i : Nat}
    (h : m.indexOf? k = some i) : (m.erase k).entries = m.entries.eraseIdx i := by
  show m.entries.eraseP (·.1 == k) = _
  rw [List.eraseP_eq_eraseIdx, findIdx?_fst, h]

theorem erase_of_none {m : InsertionMap κ ν} {k : κ} (h : m.indexOf? k = none) :
    m.erase k = m := by
  unfold erase
  congr 1
  rw [List.eraseP_eq_eraseIdx, findIdx?_fst, h]

theorem mem_entries_set {m : InsertionMap κ ν} {k : κ} {v : ν} {e : κ × ν} :
    e ∈ (m.set k v).entries ↔ e = (k, v) ∨ (e.1 ≠ k ∧ e ∈ m.entries) := by
  unfold set
  split
  · rename_i hk
    dsimp only
    unfold overwrite
    rw [List.mem_map]
    refine ⟨?_, ?_⟩
    · rintro ⟨a, ha, rfl⟩
      split
      · rename_i hak
        exact Or.inl (by rw [hak])
      · rename_i hak
        exact Or.inr ⟨hak, ha⟩
    · rintro (rfl | ⟨hne, he⟩)
      · obtain ⟨a, ha, hak⟩ := List.mem_map.mp hk
        exact ⟨a, ha, by rw [if_pos hak, hak]⟩
      · exact ⟨e, he, if_neg hne⟩
  · rename_i hk
    dsimp only
    rw [List.mem_append, List.mem_singleton]
    refine ⟨?_, ?_⟩
    · rintro (he | rfl)
      · refine Or.inr ⟨?_, he⟩
        rintro rfl
        exact hk (List.mem_map.mpr ⟨e, he, rfl⟩)
      · exact Or.inl rfl
    · rintro (rfl | ⟨-, he⟩)
      · exact Or.inr rfl
      · exact Or.inl he

@[simp] theorem get?_set_self (m : InsertionMap κ ν) (k : κ) (v : ν) :
    (m.set k v).get? k = some v :=
  get?_eq_some.mpr (mem_entries_set.mpr (Or.inl rfl))

theorem get?_set_of_ne (m : InsertionMap κ ν) {j k : κ} (v : ν) (h : j ≠ k) :
    (m.set k v).get? j = m.get? j := by
  apply Option.ext
  intro u
  rw [get?_eq_some, get?_eq_some, mem_entries_set]
  refine ⟨?_, fun hu => Or.inr ⟨h, hu⟩⟩
  rintro (heq | ⟨-, hu⟩)
  · exact absurd (congrArg Prod.fst heq) h
  · exact hu

theorem mem_keys_of_erase {m : InsertionMap κ ν} {k j : κ} (h : j ∈ (m.erase k).keys) :
    j ∈ m.keys :=
  (List.eraseP_sublist.map Prod.fst).subset h

end Ops

end InsertionMap
