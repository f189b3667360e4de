import MojoHttp.Header.Refinement

/-!
# Runs of the `Headers` writers

* **`run_refines`** — every run keeps the store a map, one `apply_refines` per call.
* **`headers_refine_map`** — with the source's `Int32` and `Int16` words: inside their widths
  the known-name table, the presence word and the entries over the append-only blob agree after
  every call, and each lookup answers what the map answers.
-/

namespace MojoHttp

/-! ## Runs -/

open Headers

/-- The reference: what a call does to the map. -/
def HeadersOp.onMap (m : InsertionMap Bytes Bytes) : HeadersOp → InsertionMap Bytes Bytes
  | .setBytes name value => m.set (asciiLowercase name) value
  | .setInt key value => m.set (asciiLowercase key) (decimal value.toInt.toNat)
  | .pop key => m.erase (asciiLowercase key)
  | .reserve _ _ => m

/-- The map a sequence of calls leaves, from the empty one. -/
def mapRun (ops : List HeadersOp) : InsertionMap Bytes Bytes :=
  ops.foldl HeadersOp.onMap InsertionMap.empty

/-- One call of a writer. -/
theorem apply_refines {w : IndexWords} {h : Headers} {m : InsertionMap Bytes Bytes}
    (hr : Refines h m) (op : HeadersOp)
    (hw : w.ExactTo (h.apply w op).buf.length (h.apply w op).count) :
    Refines (h.apply w op) (op.onMap m) := by
  cases op with
  | setBytes name value => exact setBytes_refines hr hw
  | setInt key value =>
    unfold Headers.apply HeadersOp.onMap at *
    dsimp only at hw ⊢
    rw [setInt_eq] at hw ⊢
    exact setBytes_refines hr hw
  | pop key => exact pop_refines hr hw
  | reserve bytes entries => exact reserve_refines hr bytes entries

/-- **Every run of the writers keeps the relation**, while the words hold what each call
stores. -/
theorem run_refines {w : IndexWords} (ops : List HeadersOp)
    (hw : ∀ n ≤ ops.length, w.ExactTo (Headers.run w (ops.take n)).buf.length
      (Headers.run w (ops.take n)).count) :
    Refines (Headers.run w ops) (mapRun ops) := by
  induction ops using List.reverseRecOn with
  | nil => exact empty_refines
  | append_singleton ops op ih =>
    have hlast := hw (ops ++ [op]).length (Nat.le_refl _)
    rw [List.take_length] at hlast
    have hpre : Refines (Headers.run w ops) (mapRun ops) := by
      apply ih
      intro n hn
      have h := hw n (by rw [List.length_append]; omega)
      rwa [List.take_append_of_le_length hn] at h
    unfold Headers.run mapRun at *
    rw [List.foldl_append] at hlast ⊢
    rw [List.foldl_append]
    exact apply_refines hpre op hlast

/-- The blob only grows. -/
theorem buf_prefix_apply (w : IndexWords) (h : Headers) (op : HeadersOp) :
    h.buf <+: (h.apply w op).buf := by
  have hset : ∀ name value kid, h.buf <+: (h.setBytesKnown w name value kid).buf := by
    intro name value kid
    unfold setBytesKnown
    cases h.findClassified name kid with
    | some i => exact List.prefix_append _ _
    | none => exact (List.prefix_append _ _).trans (List.prefix_append _ _)
  cases op with
  | setBytes name value => exact hset _ _ _
  | setInt key value => exact hset _ _ _
  | pop key =>
    unfold Headers.apply pop
    dsimp only
    split
    · exact List.prefix_refl _
    · exact List.prefix_refl _
  | reserve bytes entries => exact List.prefix_refl _

theorem buf_prefix_foldl (w : IndexWords) (more : List HeadersOp) (h : Headers) :
    h.buf <+: (more.foldl (Headers.apply w) h).buf := by
  induction more generalizing h with
  | nil => exact List.prefix_refl _
  | cons op more ih => exact (buf_prefix_apply w h op).trans (ih (h.apply w op))

/-! ## The three views of one map -/

/-- What the known-name table, the presence word and the entries say, in the store's own
terms: they agree with each other. -/
structure Headers.ViewsAgree (h : Headers) : Prop where
  /-- The table names entry `i` for a known header exactly when entry `i` has its name. -/
  known : ∀ kid i, h.knownIndex kid = some i ↔ i < h.count ∧ h.nameSpan i = kid.name
  /-- Every entry's name has its presence bit set. -/
  present : ∀ i < h.count, h.present &&& presenceBit (h.nameSpan i) ≠ 0
  /-- No two entries share a name, in any letter case. -/
  distinct : (h.keys.map asciiLowercase).Nodup
  /-- Every entry lies inside the blob. -/
  inside : ∀ e ∈ h.idx, 0 ≤ e.nameOff ∧ 0 ≤ e.nameLen ∧ e.nameOff + e.nameLen ≤ h.buf.length ∧
    0 ≤ e.valueOff ∧ 0 ≤ e.valueLen ∧ e.valueOff + e.valueLen ≤ h.buf.length

theorem Headers.Holds.inside {buf text : Bytes} {off len : Int} (h : Holds buf off len text) :
    0 ≤ off ∧ 0 ≤ len ∧ off + len ≤ buf.length := by
  obtain ⟨a, rfl, rfl, ha, hpre⟩ := h
  have hle := hpre.length_le
  rw [List.length_drop] at hle
  omega

theorem Headers.Refines.viewsAgree {h : Headers} {m : InsertionMap Bytes Bytes}
    (hr : Refines h m) : h.ViewsAgree := by
  have hkeyAt : ∀ i, i < h.count → m.keys[i]? = some (h.nameSpan i) := by
    intro i hi
    have hentry := List.getElem?_eq_getElem (show i < m.entries.length by rw [← hr.count]; exact hi)
    rw [hr.nameSpan hentry]
    simp [InsertionMap.keys, hentry]
  refine ⟨fun kid i => ?_, fun i hi => ?_, ?_, fun e he => ?_⟩
  · rw [hr.known, InsertionMap.indexOf?_eq_some]
    refine ⟨fun hkey => ?_, fun hname => ?_⟩
    · have hlt : i < h.count := by
        have := (List.getElem?_eq_some_iff.mp hkey).1
        show i < h.idx.length
        rw [hr.count]
        simpa [InsertionMap.keys] using this
      refine ⟨hlt, ?_⟩
      rw [hkeyAt i hlt, Option.some_inj] at hkey
      exact hkey
    · rw [hkeyAt i hname.1, hname.2]
  · exact hr.present _ (List.mem_of_getElem? (hkeyAt i hi))
  · have hmap : h.keys.map asciiLowercase = m.keys := by
      rw [hr.keys]
      exact (List.map_congr_left fun k hk => hr.folded k hk).trans (List.map_id _)
    rw [hmap]
    exact m.nodup
  · obtain ⟨i, hi, rfl⟩ := List.getElem_of_mem he
    have hentry := List.getElem?_eq_getElem (show i < m.entries.length by rw [← hr.count]; exact hi)
    obtain ⟨e, he', hname, hvalue⟩ := hr.entries i _ hentry
    rw [List.getElem?_eq_getElem hi, Option.some_inj] at he'
    subst he'
    obtain ⟨h1, h2, h3⟩ := hname.inside
    obtain ⟨h4, h5, h6⟩ := hvalue.inside
    exact ⟨h1, h2, h3, h4, h5, h6⟩

/-- **`Headers` is an insertion-ordered map of names read in any letter case.** After every
call of a run inside the index's widths, the three views agree, every lookup answers what the
reference map answers, and the blob has only grown. -/
theorem headers_refine_map (ops : List HeadersOp)
    (hfit : ∀ n ≤ ops.length, (Headers.run .packed (ops.take n)).buf.length < 2 ^ 31 ∧
      (Headers.run .packed (ops.take n)).count ≤ 32767) :
    ∀ n ≤ ops.length,
      let h := Headers.run .packed (ops.take n)
      let m := mapRun (ops.take n)
      h.ViewsAgree ∧ h.count = m.size ∧ h.keys = m.keys ∧
        (∀ key, h.find key = m.indexOf? (asciiLowercase key) ∧
          h.get key = m.get? (asciiLowercase key) ∧
          h.contains key = m.contains (asciiLowercase key)) ∧
        ∀ j ≤ n, (Headers.run .packed (ops.take j)).buf <+: h.buf := by
  intro n hn
  have hr : Refines (Headers.run .packed (ops.take n)) (mapRun (ops.take n)) := by
    apply run_refines
    intro k hk
    rw [List.length_take] at hk
    rw [List.take_take]
    obtain ⟨hbuf, hcount⟩ := hfit (min k n) (by omega)
    exact IndexWords.packed_exactTo hbuf hcount
  refine ⟨hr.viewsAgree, hr.count_eq, hr.keys, fun key => ⟨hr.find key, hr.get key, hr.contains key⟩,
    fun j hj => ?_⟩
  -- the calls from `j` to `n`
  have hsplit : ops.take n = ops.take j ++ (ops.take n).drop j := by
    have htake := List.take_append_drop j (ops.take n)
    rw [List.take_take, Nat.min_eq_left hj] at htake
    exact htake.symm
  unfold Headers.run
  rw [hsplit, List.foldl_append]
  exact buf_prefix_foldl _ _ _

/-- A name set, set again in another letter case, and removed in a third. -/
theorem headers_refine_map_host :
    let ops : List HeadersOp := [.setBytes (ascii "Host") (ascii "a"),
      .setBytes (ascii "X") (ascii "1"), .setBytes (ascii "HOST") (ascii "b"), .pop (ascii "host")]
    (Headers.run .packed (ops.take 3)).get (ascii "hosT") = some (ascii "b") ∧
      (Headers.run .packed ops).keys = [ascii "x"] := by
  intro ops
  have hrun := headers_refine_map ops (by decide)
  obtain ⟨-, -, -, hget, -⟩ := hrun 3 (by decide)
  obtain ⟨-, -, hkeys, -⟩ := hrun 4 (by decide)
  exact ⟨((hget (ascii "hosT")).2.1).trans (by decide), hkeys.trans (by decide)⟩

end MojoHttp
