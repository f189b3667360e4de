import Mathlib.Data.List.Basic

/-!
# Machines that can be fed in pieces

A reader over a stream acts on what it has: it asks for more, takes some of the input and goes
on in another state, or halts. A machine is **resumable** when an act it takes on some input is
the act it takes on any longer one. Such a machine does not see how its input was cut.

* **`Machine.run`** — act until more is needed or the machine halts; `run_eq` is its equation.
* **`Machine.run_append`** — a run over `l ++ m` is the run over `l`, resumed with `m`.
* **`Machine.ofNext`** — the machine that takes one symbol at every act.
* **`Machine.run_ofNext_eq_closed_iff`** — what such a machine halts on, as a language.
* **`Machine.feed_eq`** — feeding pieces one after another, what a call did not take kept in
  front of the next piece, is one run over their concatenation.
-/

namespace Resumable

/-- What a machine does with the input it sees. -/
inductive Verdict (σ ο τ : Type) where
  /-- Nothing yet: the input is too short to act on. -/
  | more
  /-- Take `n` of the input, put out `out`, go on in `s`. -/
  | take (n : Nat) (s : σ) (out : List ο)
  /-- Take `n` of the input, put out `out`, and stop with `t`. -/
  | halt (n : Nat) (out : List ο) (t : τ)

structure Machine (α σ ο τ : Type) where
  step : σ → List α → Verdict σ ο τ

/-- How a run over some input ends. -/
inductive Outcome (α σ ο τ : Type) where
  /-- In state `s`, `tail` kept for when more arrives. -/
  | waiting (s : σ) (tail : List α) (out : List ο)
  /-- Halted with `t`, `rest` left behind what was taken. -/
  | closed (t : τ) (rest : List α) (out : List ο)

variable {α σ ο τ : Type}

/-- The outcome behind an earlier output. -/
def Outcome.after (pre : List ο) : Outcome α σ ο τ → Outcome α σ ο τ
  | .waiting s tail out => .waiting s tail (pre ++ out)
  | .closed t rest out => .closed t rest (pre ++ out)

@[simp] theorem Outcome.after_nil (o : Outcome α σ ο τ) : o.after [] = o := by
  cases o <;> rfl

theorem Outcome.after_after (a b : List ο) (o : Outcome α σ ο τ) :
    (o.after b).after a = o.after (a ++ b) := by
  cases o <;> simp [Outcome.after, List.append_assoc]

namespace Machine

/-- An act taken on some input is the act taken on any longer one, and it takes no more than
there is; going on takes something. -/
structure IsResumable (M : Machine α σ ο τ) : Prop where
  take_pos : ∀ {s l n s' out}, M.step s l = .take n s' out → 0 < n ∧ n ≤ l.length
  halt_le : ∀ {s l n out t}, M.step s l = .halt n out t → n ≤ l.length
  take_append : ∀ {s l n s' out} (m : List α), M.step s l = .take n s' out →
    M.step s (l ++ m) = .take n s' out
  halt_append : ∀ {s l n out t} (m : List α), M.step s l = .halt n out t →
    M.step s (l ++ m) = .halt n out t

/-- At most `fuel` acts. -/
def runFuel (M : Machine α σ ο τ) : (fuel : Nat) → σ → List α → Outcome α σ ο τ
  | 0, s, l => .waiting s l []
  | fuel + 1, s, l =>
    match M.step s l with
    | .more => .waiting s l []
    | .take n s' out => (M.runFuel fuel s' (l.drop n)).after out
    | .halt n out t => .closed t (l.drop n) out

/-- Act until more input is needed or the machine halts. -/
def run (M : Machine α σ ο τ) (s : σ) (l : List α) : Outcome α σ ο τ :=
  M.runFuel (l.length + 1) s l

section Run

variable {M : Machine α σ ο τ} (hM : M.IsResumable)
include hM

/-- Every act that goes on takes something: fuel past the input's length changes nothing. -/
theorem runFuel_eq {f g : Nat} {s : σ} {l : List α} (hf : l.length < f) (hg : l.length < g) :
    M.runFuel f s l = M.runFuel g s l := by
  induction f generalizing g s l with
  | zero => omega
  | succ f ih =>
    cases g with
    | zero => omega
    | succ g =>
      unfold runFuel
      cases hs : M.step s l with
      | more => rfl
      | halt n out t => rfl
      | take n s' out =>
        obtain ⟨hpos, hle⟩ := hM.take_pos hs
        have hdrop : (l.drop n).length = l.length - n := List.length_drop
        dsimp only
        rw [ih (by omega) (show (l.drop n).length < g by omega)]

/-- **The equation of a run.** -/
theorem run_eq (s : σ) (l : List α) :
    M.run s l = match M.step s l with
      | .more => .waiting s l []
      | .take n s' out => (M.run s' (l.drop n)).after out
      | .halt n out t => .closed t (l.drop n) out := by
  unfold run
  rw [runFuel]
  cases hs : M.step s l with
  | more => rfl
  | halt n out t => rfl
  | take n s' out =>
    obtain ⟨hpos, hle⟩ := hM.take_pos hs
    have hdrop : (l.drop n).length = l.length - n := List.length_drop
    dsimp only
    rw [runFuel_eq hM (by omega) (Nat.lt_succ_self _)]

omit hM in
/-- A run resumed with more input. -/
def resume (M : Machine α σ ο τ) (m : List α) : Outcome α σ ο τ → Outcome α σ ο τ
  | .waiting s tail out => (M.run s (tail ++ m)).after out
  | .closed t rest out => .closed t (rest ++ m) out

omit hM in
theorem resume_after (m : List α) (pre : List ο) (o : Outcome α σ ο τ) :
    M.resume m (o.after pre) = (M.resume m o).after pre := by
  cases o with
  | waiting s tail out => exact (Outcome.after_after pre out _).symm
  | closed t rest out => rfl

/-- **A run over more input is the run over less, resumed.** -/
theorem run_append (s : σ) (l m : List α) : M.run s (l ++ m) = M.resume m (M.run s l) := by
  -- on the length of `l`: every act that goes on shortens it
  induction hn : l.length using Nat.strongRecOn generalizing s l with
  | _ n ih =>
    rw [run_eq hM s l]
    cases hs : M.step s l with
    | more => simp [resume]
    | halt k out t =>
      rw [run_eq hM s (l ++ m), hM.halt_append m hs]
      simp only [resume]
      rw [List.drop_append_of_le_length (hM.halt_le hs)]
    | take k s' out =>
      obtain ⟨hpos, hle⟩ := hM.take_pos hs
      have hdrop : (l.drop k).length = l.length - k := List.length_drop
      rw [run_eq hM s (l ++ m), hM.take_append m hs]
      dsimp only
      rw [List.drop_append_of_le_length hle, resume_after,
        ih _ (by omega) s' (l.drop k) rfl]

/-- A run stops asking only at a state that has nothing to do with its tail. -/
theorem step_of_run_waiting {s s' : σ} {l tail : List α} {out : List ο}
    (h : M.run s l = .waiting s' tail out) : M.step s' tail = .more := by
  induction hn : l.length using Nat.strongRecOn generalizing s l out with
  | _ n ih =>
    rw [run_eq hM s l] at h
    cases hs : M.step s l with
    | more =>
      rw [hs] at h
      cases h
      exact hs
    | halt k o t =>
      rw [hs] at h
      cases h
    | take k s1 o =>
      obtain ⟨hpos, hle⟩ := hM.take_pos hs
      have hdrop : (l.drop k).length = l.length - k := List.length_drop
      rw [hs] at h
      dsimp only at h
      cases hr : M.run s1 (l.drop k) with
      | waiting s2 tail2 out2 =>
        rw [hr] at h
        cases h
        exact ih _ (by omega) hr rfl
      | closed t rest out2 =>
        rw [hr] at h
        cases h

end Run

/-! ## Pieces -/

/-- Feed the pieces one after another: each call sees what the last one kept, then its piece.
Behind a halt nothing is fed, and what was not is left behind. -/
def feed (M : Machine α σ ο τ) : σ → (tail : List α) → List (List α) → Outcome α σ ο τ
  | s, tail, [] => .waiting s tail []
  | s, tail, p :: ps =>
    match M.run s (tail ++ p) with
    | .waiting s' tail' out => (M.feed s' tail' ps).after out
    | .closed t rest out => .closed t (rest ++ ps.flatten) out

/-- **How the input is cut does not matter.** -/
theorem feed_eq {M : Machine α σ ο τ} (hM : M.IsResumable) {s : σ} {tail : List α}
    (hmore : M.step s tail = .more) (ps : List (List α)) :
    M.feed s tail ps = M.run s (tail ++ ps.flatten) := by
  induction ps generalizing s tail with
  | nil =>
    rw [List.flatten_nil, List.append_nil, run_eq hM, hmore]
    rfl
  | cons p ps ih =>
    rw [List.flatten_cons, ← List.append_assoc, run_append hM]
    unfold feed
    cases hr : M.run s (tail ++ p) with
    | waiting s' tail' out =>
      dsimp only [resume]
      rw [ih (step_of_run_waiting hM hr)]
    | closed t rest out => rfl

end Machine

/-! ## One symbol at a time -/

/-- What a state does with one symbol: go on, or halt. -/
inductive Next (σ ο τ : Type) where
  | go (s : σ) (out : List ο)
  | halt (t : τ)

namespace Machine

/-- The machine that takes one symbol at every act. -/
def ofNext (next : σ → α → Next σ ο τ) : Machine α σ ο τ where
  step
    | _, [] => .more
    | s, a :: _ =>
      match next s a with
      | .go s' out => .take 1 s' out
      | .halt t => .halt 1 [] t

variable {next : σ → α → Next σ ο τ}

theorem ofNext_cons (s : σ) (a : α) (l : List α) :
    (ofNext next).step s (a :: l) =
      match next s a with
      | .go s' out => .take 1 s' out
      | .halt t => .halt 1 [] t := rfl

theorem ofNext_isResumable : (ofNext next).IsResumable where
  take_pos := by
    intro s l n s' out h
    cases l with
    | nil => cases h
    | cons a l =>
      rw [ofNext_cons] at h
      split at h <;> cases h
      simp
  halt_le := by
    intro s l n out t h
    cases l with
    | nil => cases h
    | cons a l =>
      rw [ofNext_cons] at h
      split at h <;> cases h
      simp
  take_append := by
    intro s l n s' out m h
    cases l with
    | nil => cases h
    | cons a l => exact h
  halt_append := by
    intro s l n out t m h
    cases l with
    | nil => cases h
    | cons a l => exact h

@[simp] theorem run_ofNext_nil (s : σ) : (ofNext next).run s [] = .waiting s [] [] :=
  run_eq ofNext_isResumable s []

theorem run_ofNext_cons (s : σ) (a : α) (l : List α) :
    (ofNext next).run s (a :: l) =
      match next s a with
      | .go s' out => ((ofNext next).run s' l).after out
      | .halt t => .closed t l [] := by
  rw [run_eq ofNext_isResumable, ofNext_cons]
  cases next s a <;> rfl

theorem run_ofNext_go {s s' : σ} {a : α} {out : List ο} (h : next s a = .go s' out)
    (l : List α) : (ofNext next).run s (a :: l) = ((ofNext next).run s' l).after out := by
  rw [run_ofNext_cons, h]

theorem run_ofNext_halt {s : σ} {a : α} {t : τ} (h : next s a = .halt t) (l : List α) :
    (ofNext next).run s (a :: l) = .closed t l [] := by
  rw [run_ofNext_cons, h]

/-- It never keeps anything. -/
theorem tail_of_ofNext_waiting {s s' : σ} {l tail : List α} {out : List ο}
    (h : (ofNext next).run s l = .waiting s' tail out) : tail = [] := by
  have hmore := step_of_run_waiting ofNext_isResumable h
  cases tail with
  | nil => rfl
  | cons a tail =>
    rw [ofNext_cons] at hmore
    split at hmore <;> cases hmore

/-- **The language of a machine.** What satisfies the machine's equation, symbol by symbol, is
what it halts on. -/
theorem run_ofNext_eq_closed_iff {L : σ → List α → List ο → Prop} {t : τ} {rest : List α}
    (hnil : ∀ s out, ¬ L s [] out)
    (hcons : ∀ s a l out, L s (a :: l) out ↔
      match next s a with
      | .go s' o => ∃ out', out = o ++ out' ∧ L s' l out'
      | .halt t' => t' = t ∧ l = rest ∧ out = [])
    (s : σ) (l : List α) (out : List ο) :
    (ofNext next).run s l = .closed t rest out ↔ L s l out := by
  induction l generalizing s out with
  | nil =>
    rw [run_ofNext_nil]
    exact iff_of_false (by simp) (hnil s out)
  | cons a l ih =>
    rw [run_ofNext_cons, hcons]
    cases next s a with
    | halt t' =>
      dsimp only
      rw [Outcome.closed.injEq]
      exact and_congr_right fun _ => and_congr_right fun _ => eq_comm
    | go s' o =>
      dsimp only
      refine ⟨fun h => ?_, fun ⟨out', hout, hL⟩ => ?_⟩
      · cases hr : (ofNext next).run s' l with
        | waiting s2 tail out2 =>
          rw [hr] at h
          cases h
        | closed t2 rest2 out2 =>
          rw [hr] at h
          injection h with ht hrest hout
          exact ⟨out2, hout.symm, (ih s' out2).mp (by rw [hr, ht, hrest])⟩
      · rw [(ih s' out').mpr hL, hout]
        rfl

end Machine

/-- Some symbols that are all `ok`, then a word of `K`. -/
def Span (ok : α → Prop) (K : List α → Prop) (l : List α) : Prop :=
  ∃ seg t, (∀ a ∈ seg, ok a) ∧ l = seg ++ t ∧ K t

theorem span_nil {ok : α → Prop} {K : List α → Prop} : Span ok K [] ↔ K [] := by
  refine ⟨fun ⟨seg, t, _, heq, hK⟩ => ?_, fun hK => ⟨[], [], by simp, rfl, hK⟩⟩
  have ht : t = [] := (List.append_eq_nil_iff.mp heq.symm).2
  exact ht ▸ hK

theorem span_cons {ok : α → Prop} {K : List α → Prop} {a : α} {l : List α} :
    Span ok K (a :: l) ↔ K (a :: l) ∨ (ok a ∧ Span ok K l) := by
  refine ⟨fun ⟨seg, t, hok, heq, hK⟩ => ?_, fun h => ?_⟩
  · cases seg with
    | nil =>
      rw [List.nil_append] at heq
      exact Or.inl (heq ▸ hK)
    | cons b seg =>
      rw [List.cons_append] at heq
      injection heq with hab hl
      refine Or.inr ⟨hab ▸ hok b (by simp), seg, t, fun c hc => hok c (by simp [hc]), hl, hK⟩
  · rcases h with hK | ⟨hok, seg, t, hseg, heq, hK⟩
    · exact ⟨[], a :: l, by simp, rfl, hK⟩
    · refine ⟨a :: seg, t, fun c hc => ?_, by rw [heq]; rfl, hK⟩
      rcases List.mem_cons.mp hc with rfl | hc
      · exact hok
      · exact hseg c hc

end Resumable
