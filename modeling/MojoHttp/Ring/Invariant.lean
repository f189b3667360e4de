import MojoHttp.Ring

/-!
# What holds of a ring at every instant

Each cell is at every instant the cell of one position, and either free for it, being written by
the one push that claimed it, published, or being taken by the one pop that claimed it.

* **`Effect`** — everything one access can do.
* **`Inv`** — the invariant, over all cells and all half-finished calls.
* **`inv_effect`** — every access keeps it.
* **`inv_of_execution`** — so it holds at every instant of every interleaving.
-/

namespace MojoHttp

namespace Ring

open Threads (Next Program)

/-! ## Positions a call has claimed -/

/-- The position a push has claimed and not yet published. -/
def Pc.pushing : Pc → Option Nat
  | .pushWrite _ pos => some pos
  | .pushPublish _ pos => some pos
  | _ => none

/-- The position a pop has claimed and not yet released. -/
def Pc.popping : Pc → Option Nat
  | .popRead pos => some pos
  | .popRelease pos _ => some pos
  | _ => none

/-- The position a call has claimed. -/
def Pc.claimed (pc : Pc) : Option Nat := pc.pushing <|> pc.popping

theorem Pc.claimed_of_pushing {pc : Pc} {pos : Nat} (h : pc.pushing = some pos) :
    pc.claimed = some pos := by rw [claimed, h]; rfl

theorem Pc.claimed_of_popping {pc : Pc} {pos : Nat} (h : pc.popping = some pos) :
    pc.claimed = some pos := by
  cases pc <;> simp_all [claimed, pushing, popping]

/-! ## Everything one access can do -/

/-- What a call has learnt before it claims. Sequence words only grow, so it stays true. -/
def Ready (z : Size) (r : Ring) : Pc → Prop
  | .pushExchange _ pos => pos ≤ r.seq (z.cell pos)
  | .popExchange pos => pos + 1 ≤ r.seq (z.cell pos)
  | _ => True

/-- The point behind an access, none behind a return. -/
def point : Next Pc Res → Option Pc
  | .goto pc => some pc
  | .ret _ => none

/-- The access at `pc` and what it makes of the memory. -/
inductive Effect (z : Size) (m : Traced) : Pc → Traced → Option Pc → Prop
  | read (pc : Pc) (pc' : Option Pc) (hpc : pc.claimed = none)
      (hpc' : ∀ p, pc' = some p → p.claimed = none ∧ Ready z m.ring p) : Effect z m pc m pc'
  | claimTail (value : Int) (pos : Nat) (htail : m.ring.tail = pos) :
      Effect z m (.pushExchange value pos)
        ⟨{ m.ring with tail := pos + 1 }, m.pushed ++ [value], m.popped⟩ (some (.pushWrite value pos))
  | write (value : Int) (pos : Nat) :
      Effect z m (.pushWrite value pos)
        { m with ring := { m.ring with val := Function.update m.ring.val (z.cell pos) value } }
        (some (.pushPublish value pos))
  | publish (value : Int) (pos : Nat) :
      Effect z m (.pushPublish value pos)
        { m with ring := { m.ring with seq := Function.update m.ring.seq (z.cell pos) (pos + 1) } }
        none
  | claimHead (pos : Nat) (hhead : m.ring.head = pos) :
      Effect z m (.popExchange pos)
        ⟨{ m.ring with head := pos + 1 }, m.pushed, m.popped ++ [m.ring.val (z.cell pos)]⟩
        (some (.popRead pos))
  | take (pos : Nat) :
      Effect z m (.popRead pos) m (some (.popRelease pos (m.ring.val (z.cell pos))))
  | release (pos : Nat) (out : Int) :
      Effect z m (.popRelease pos out)
        { m with ring := { m.ring with
            seq := Function.update m.ring.seq (z.cell pos) (pos + z.capacity) } } none

/-- **One access does no more.** -/
theorem effect_advance (z : Size) (m : Traced) (pc : Pc) :
    Effect z m pc ((program z).advance m pc).1 (point ((program z).advance m pc).2) := by
  have hstay : (⟨m.ring, m.pushed ++ [], m.popped ++ []⟩ : Traced) = m := by
    rw [List.append_nil, List.append_nil]
  -- an access that only reads, to a point that has learnt nothing yet
  have hread : ∀ (pc : Pc) (nx : Next Pc Res), pc.claimed = none →
      (∀ p, point nx = some p → p.claimed = none ∧ Ready z m.ring p) →
      Effect z m pc ⟨m.ring, m.pushed ++ [], m.popped ++ []⟩ (point nx) := by
    intro pc nx hpc hpc'
    rw [hstay]
    exact .read pc (point nx) hpc hpc'
  have hret : ∀ (res : Res) (p : Pc), point (.ret res) = some p →
      p.claimed = none ∧ Ready z m.ring p := fun _ _ h => nomatch h
  have hgoto : ∀ pc' : Pc, pc'.claimed = none → Ready z m.ring pc' →
      ∀ p : Pc, point (.goto pc') = some p → p.claimed = none ∧ Ready z m.ring p := by
    rintro pc' hclaim hready p ⟨⟩
    exact ⟨hclaim, hready⟩
  cases pc with
  | pushLoad value => exact hread _ _ rfl (hgoto _ rfl trivial)
  | pushSeq value pos =>
    simp only [program, advance, tailMoves, headMoves]
    split
    · rename_i hdif
      exact hread _ _ rfl (hgoto _ rfl (show pos ≤ m.ring.seq (z.cell pos) by omega))
    · split
      · exact hread _ _ rfl (hret _)
      · exact hread _ _ rfl (hgoto _ rfl trivial)
  | pushExchange value pos =>
    simp only [program, advance, tailMoves, headMoves]
    split
    · rename_i htail
      rw [List.append_nil]
      exact .claimTail value pos htail
    · exact hread _ _ rfl (hgoto _ rfl trivial)
  | pushWrite value pos =>
    simp only [program, advance, tailMoves, headMoves, List.append_nil]
    exact .write value pos
  | pushPublish value pos =>
    simp only [program, advance, tailMoves, headMoves, List.append_nil]
    exact .publish value pos
  | popLoad => exact hread _ _ rfl (hgoto _ rfl trivial)
  | popSeq pos =>
    simp only [program, advance, tailMoves, headMoves]
    split
    · rename_i hdif
      exact hread _ _ rfl (hgoto _ rfl (show pos + 1 ≤ m.ring.seq (z.cell pos) by omega))
    · split
      · exact hread _ _ rfl (hret _)
      · exact hread _ _ rfl (hgoto _ rfl trivial)
  | popExchange pos =>
    simp only [program, advance, tailMoves, headMoves]
    split
    · rename_i hhead
      rw [List.append_nil]
      exact .claimHead pos hhead
    · exact hread _ _ rfl (hgoto _ rfl trivial)
  | popRead pos =>
    simp only [program, advance, tailMoves, headMoves, List.append_nil]
    exact .take pos
  | popRelease pos out =>
    simp only [program, advance, tailMoves, headMoves, List.append_nil]
    exact .release pos out
  | popsLoad => exact hread _ _ rfl (hret _)
  | peekLoad => exact hread _ _ rfl (hgoto _ rfl trivial)
  | peekSeq pos =>
    simp only [program, advance, tailMoves, headMoves]
    split
    · exact hread _ _ rfl (hret _)
    · exact hread _ _ rfl (hgoto _ rfl trivial)
  | peekRead pos => exact hread _ _ rfl (hret _)
  | isEmptyLoad => exact hread _ _ rfl (hgoto _ rfl trivial)
  | isEmptySeq pos => exact hread _ _ rfl (hret _)

/-! ## The invariant -/

/-- A push has claimed `pos` and not yet published `value` there. -/
structure Writing (z : Size) (m : Traced) (pos : Nat) (value : Int) : Prop where
  seq : m.ring.seq (z.cell pos) = pos
  head : m.ring.head ≤ pos
  tail : pos < m.ring.tail
  window : m.ring.tail ≤ pos + z.capacity
  value : m.pushed[pos]? = some value

/-- A pop has claimed `pos`, where `value` was, and not yet released it. -/
structure Taking (z : Size) (m : Traced) (pos : Nat) (value : Int) : Prop where
  seq : m.ring.seq (z.cell pos) = pos + 1
  head : pos < m.ring.head
  window : m.ring.tail ≤ pos + z.capacity
  value : m.pushed[pos]? = some value

/-- The cell of `pos` holds `value`, pushed there and not claimed by a pop. -/
structure Published (z : Size) (m : Traced) (pos : Nat) (value : Int) : Prop where
  seq : m.ring.seq (z.cell pos) = pos + 1
  head : m.ring.head ≤ pos
  tail : pos < m.ring.tail
  window : m.ring.tail ≤ pos + z.capacity
  val : m.ring.val (z.cell pos) = value
  value : m.pushed[pos]? = some value

/-- What a thread relies on at its point. -/
def PointOk (z : Size) (m : Traced) : Pc → Prop
  | .pushWrite value pos => Writing z m pos value
  | .pushPublish value pos => Writing z m pos value ∧ m.ring.val (z.cell pos) = value
  | .popRead pos => Taking z m pos (m.ring.val (z.cell pos))
  | .popRelease pos out => Taking z m pos out
  | pc => Ready z m.ring pc

variable {T : Type}

abbrev State (T : Type) := Threads.State T Traced Pc

/-- What the cell of `pos` is, where `pos` is the position it is at. -/
inductive CellAt (z : Size) (s : State T) (pos : Nat) : Prop
  | free (hseq : s.mem.ring.seq (z.cell pos) = pos) (htail : s.mem.ring.tail ≤ pos)
      (hhead : pos < s.mem.ring.head + z.capacity)
  | writing (t : T) (pc : Pc) (hpc : s.pc t = some pc) (hclaim : pc.pushing = some pos)
  | published (value : Int) (h : Published z s.mem pos value)
  | taking (t : T) (pc : Pc) (hpc : s.pc t = some pc) (hclaim : pc.popping = some pos)

structure Inv (z : Size) (s : State T) : Prop where
  pushed : s.mem.pushed.length = s.mem.ring.tail
  popped : s.mem.popped = s.mem.pushed.take s.mem.ring.head
  head_le : s.mem.ring.head ≤ s.mem.ring.tail
  window : s.mem.ring.tail ≤ s.mem.ring.head + z.capacity
  points : ∀ t pc, s.pc t = some pc → PointOk z s.mem pc
  /-- Two threads claim no position in common. -/
  alone : ∀ t u p q pos, s.pc t = some p → s.pc u = some q → p.claimed = some pos →
    q.claimed = some pos → t = u
  cells : ∀ c ≤ z.mask, ∃ pos, z.cell pos = c ∧ CellAt z s pos

theorem Size.cell_succ_ne (z : Size) (pos : Nat) : z.cell (pos + 1) ≠ z.cell pos := by
  intro h
  have hcap := z.two_le_capacity
  have := z.cell_inj h (by omega) (by omega)
  omega

theorem pointOk_of_unclaimed {z : Size} {m : Traced} {pc : Pc} (h : pc.claimed = none) :
    PointOk z m pc ↔ Ready z m.ring pc := by
  cases pc <;> first | exact Iff.rfl | cases h

theorem PointOk.writing {z : Size} {m : Traced} {pc : Pc} {pos : Nat} (h : PointOk z m pc)
    (hclaim : pc.pushing = some pos) : ∃ value, Writing z m pos value := by
  cases pc <;> cases hclaim
  · exact ⟨_, h⟩
  · exact ⟨_, h.1⟩

theorem PointOk.taking {z : Size} {m : Traced} {pc : Pc} {pos : Nat} (h : PointOk z m pc)
    (hclaim : pc.popping = some pos) : ∃ value, Taking z m pos value := by
  cases pc <;> cases hclaim
  · exact ⟨_, h⟩
  · exact ⟨_, h⟩

/-- What a claimed position is. -/
theorem PointOk.claimed {z : Size} {m : Traced} {pc : Pc} {pos : Nat} (h : PointOk z m pc)
    (hclaim : pc.claimed = some pos) :
    (∃ value, Writing z m pos value) ∨ ∃ value, Taking z m pos value := by
  cases hpush : pc.pushing with
  | some q =>
    obtain rfl : q = pos := Option.some.inj ((Pc.claimed_of_pushing hpush).symm.trans hclaim)
    exact Or.inl (h.writing hpush)
  | none =>
    have hpop : pc.popping = some pos := by rwa [Pc.claimed, hpush] at hclaim
    exact Or.inr (h.taking hpop)

/-- **Positions claimed by two threads are in two cells.** -/
theorem Inv.apart {z : Size} {s : State T} (h : Inv z s) {t u : T} (htu : u ≠ t) {pc pc' : Pc}
    {p q : Nat} (ht : s.pc t = some pc) (hu : s.pc u = some pc') (hp : pc.claimed = some p)
    (hq : pc'.claimed = some q) : z.cell q ≠ z.cell p := by
  intro hcell
  have hne : p ≠ q := fun heq => htu (h.alone u t _ _ p hu ht (heq ▸ hq) hp)
  -- the sequence word of the one cell says which position it is at
  rcases (h.points t pc ht).claimed hp with ⟨_, hw⟩ | ⟨_, hw⟩ <;>
    rcases (h.points u pc' hu).claimed hq with ⟨_, hw'⟩ | ⟨_, hw'⟩
  · exact hne (hw.seq.symm.trans (hcell ▸ hw'.seq))
  · have heq : p = q + 1 := hw.seq.symm.trans (hcell ▸ hw'.seq)
    rw [heq] at hcell
    exact z.cell_succ_ne q hcell.symm
  · have heq : q = p + 1 := hw'.seq.symm.trans (hcell ▸ hw.seq)
    rw [heq] at hcell
    exact z.cell_succ_ne p hcell
  · have heq : p + 1 = q + 1 := hw.seq.symm.trans (hcell ▸ hw'.seq)
    omega

/-! ## What an access leaves as it was -/

/-- The memory `m'` is as good as `m` for whoever is at position `pos`. -/
structure Frame (z : Size) (m m' : Traced) (pos : Nat) : Prop where
  seq : m'.ring.seq (z.cell pos) = m.ring.seq (z.cell pos)
  val : m'.ring.val (z.cell pos) = m.ring.val (z.cell pos)
  head : m.ring.head ≤ m'.ring.head
  headAt : m.ring.head ≤ pos → m'.ring.head ≤ pos
  tail : m.ring.tail ≤ m'.ring.tail
  tailAt : m.ring.tail ≤ pos → m'.ring.tail ≤ pos
  window : m.ring.tail ≤ pos + z.capacity → m'.ring.tail ≤ pos + z.capacity
  pushed : m.pushed <+: m'.pushed

theorem Frame.refl (z : Size) (m : Traced) (pos : Nat) : Frame z m m pos :=
  ⟨rfl, rfl, le_rfl, id, le_rfl, id, id, List.prefix_rfl⟩

theorem Frame.getElem {z : Size} {m m' : Traced} {pos : Nat} (hf : Frame z m m' pos) {value : Int}
    (h : m.pushed[pos]? = some value) : m'.pushed[pos]? = some value := by
  obtain ⟨rest, hrest⟩ := hf.pushed
  rw [← hrest, List.getElem?_append_left (List.getElem?_eq_some_iff.mp h).1]
  exact h

theorem Writing.frame {z : Size} {m m' : Traced} {pos : Nat} {value : Int}
    (h : Writing z m pos value) (hf : Frame z m m' pos) : Writing z m' pos value :=
  ⟨hf.seq.trans h.seq, hf.headAt h.head, h.tail.trans_le hf.tail, hf.window h.window,
    hf.getElem h.value⟩

theorem Taking.frame {z : Size} {m m' : Traced} {pos : Nat} {value : Int}
    (h : Taking z m pos value) (hf : Frame z m m' pos) : Taking z m' pos value :=
  ⟨hf.seq.trans h.seq, h.head.trans_le hf.head, hf.window h.window, hf.getElem h.value⟩

theorem Published.frame {z : Size} {m m' : Traced} {pos : Nat} {value : Int}
    (h : Published z m pos value) (hf : Frame z m m' pos) : Published z m' pos value :=
  ⟨hf.seq.trans h.seq, hf.headAt h.head, h.tail.trans_le hf.tail, hf.window h.window,
    hf.val.trans h.val, hf.getElem h.value⟩

theorem PointOk.frame {z : Size} {m m' : Traced} {pc : Pc} (h : PointOk z m pc)
    (hmono : ∀ c, m.ring.seq c ≤ m'.ring.seq c)
    (hf : ∀ pos, pc.claimed = some pos → Frame z m m' pos) : PointOk z m' pc := by
  cases pc with
  | pushExchange value pos => exact le_trans h (hmono _)
  | popExchange pos => exact le_trans h (hmono _)
  | pushWrite value pos => exact Writing.frame h (hf pos rfl)
  | pushPublish value pos => exact ⟨h.1.frame (hf pos rfl), (hf pos rfl).val.trans h.2⟩
  | popRead pos =>
    have hf := hf pos rfl
    have ht := Taking.frame h hf
    show Taking z m' pos (m'.ring.val (z.cell pos))
    rw [hf.val]
    exact ht
  | popRelease pos out => exact Taking.frame h (hf pos rfl)
  | _ => trivial

variable [DecidableEq T]

/-- **The rule of one access** of thread `t` to the cell of `pos`: whoever is at another cell is
left as it was; what the cell and the thread are afterwards is the access's own business. -/
theorem Inv.access {z : Size} {s : State T} (h : Inv z s) {t : T} {pc : Pc} {pc' : Option Pc}
    {m' : Traced} (pos : Nat) (ht : s.pc t = some pc)
    (hframe : ∀ q, z.cell q ≠ z.cell pos → Frame z s.mem m' q)
    (hmono : ∀ c, s.mem.ring.seq c ≤ m'.ring.seq c)
    (hold : ∀ q, pc.claimed = some q → q = pos)
    (hothers : ∀ u p q, u ≠ t → s.pc u = some p → p.claimed = some q → z.cell q ≠ z.cell pos)
    (hpushed : m'.pushed.length = m'.ring.tail)
    (hpopped : m'.popped = m'.pushed.take m'.ring.head)
    (hle : m'.ring.head ≤ m'.ring.tail) (hwindow : m'.ring.tail ≤ m'.ring.head + z.capacity)
    (hpoint : ∀ p, pc' = some p → PointOk z m' p)
    (hnew : ∀ p q, pc' = some p → p.claimed = some q → q = pos)
    (hcell : ∃ q, z.cell q = z.cell pos ∧ CellAt z (s.move t m' pc') q) :
    Inv z (s.move t m' pc') := by
  have hself : (s.move t m' pc').pc t = pc' := s.move_pc_self t m' pc'
  have hne : ∀ u, u ≠ t → (s.move t m' pc').pc u = s.pc u := fun u => s.move_pc_of_ne m' pc'
  refine ⟨hpushed, hpopped, hle, hwindow, ?_, ?_, ?_⟩
  · intro u p hu
    rcases eq_or_ne u t with rfl | hut
    · exact hpoint p (hself.symm.trans hu)
    · rw [hne u hut] at hu
      exact (h.points u p hu).frame hmono fun q hq => hframe q (hothers u p q hut hu hq)
  · intro u v p q r hu hv hp hq
    rcases eq_or_ne u t with rfl | hut <;> rcases eq_or_ne v u with hvu | hvu
    · exact hvu.symm
    · rw [hne v hvu] at hv
      have hr : r = pos := hnew p r (hself.symm.trans hu) hp
      exact absurd (congrArg z.cell hr) (hothers v q r hvu hv hq)
    · exact hvu.symm
    · rw [hne u hut] at hu
      rcases eq_or_ne v t with rfl | hvt
      · have hr : r = pos := hnew q r (hself.symm.trans hv) hq
        exact absurd (congrArg z.cell hr) (hothers u p r hut hu hp)
      · rw [hne v hvt] at hv
        exact h.alone u v p q r hu hv hp hq
  · intro c hc
    rcases eq_or_ne c (z.cell pos) with rfl | hcpos
    · exact hcell
    · obtain ⟨q, rfl, hq⟩ := h.cells c hc
      have hf := hframe q hcpos
      -- the thread's own claim is in the other cell
      have hkeep : ∀ u p, s.pc u = some p → p.claimed = some q →
          (s.move t m' pc').pc u = some p := by
        intro u p hu hp
        rcases eq_or_ne u t with rfl | hut
        · obtain rfl := Option.some.inj (ht.symm.trans hu)
          exact absurd (congrArg z.cell (hold q hp)) hcpos
        · rw [hne u hut]
          exact hu
      refine ⟨q, rfl, ?_⟩
      cases hq with
      | free hseq htail hhead =>
        exact .free (hf.seq.trans hseq) (hf.tailAt htail)
          (hhead.trans_le (Nat.add_le_add_right hf.head _))
      | writing u p hu hp => exact .writing u p (hkeep u p hu (Pc.claimed_of_pushing hp)) hp
      | published value hpub => exact .published value (hpub.frame hf)
      | taking u p hu hp => exact .taking u p (hkeep u p hu (Pc.claimed_of_popping hp)) hp

/-- An access that only reads, by a thread that has claimed nothing. -/
theorem Inv.reader {z : Size} {s : State T} (h : Inv z s) {t : T} {pc' : Option Pc}
    (hold : ∀ p, s.pc t = some p → p.claimed = none)
    (hnew : ∀ p, pc' = some p → p.claimed = none ∧ Ready z s.mem.ring p) :
    Inv z (s.move t s.mem pc') := by
  have hself : (s.move t s.mem pc').pc t = pc' := s.move_pc_self t s.mem pc'
  have hne : ∀ u, u ≠ t → (s.move t s.mem pc').pc u = s.pc u := fun u => s.move_pc_of_ne s.mem pc'
  -- whoever has claimed a position is another thread, before and behind the access
  have hclaims : ∀ u p q, p.claimed = some q →
      ((s.move t s.mem pc').pc u = some p ↔ s.pc u = some p) := by
    intro u p q hq
    rcases eq_or_ne u t with rfl | hut
    · refine iff_of_false (fun hp => ?_) fun hp => ?_
      · rw [(hnew p (hself.symm.trans hp)).1] at hq
        cases hq
      · rw [hold p hp] at hq
        cases hq
    · rw [hne u hut]
  refine ⟨h.pushed, h.popped, h.head_le, h.window, ?_, ?_, ?_⟩
  · intro u p hu
    rcases eq_or_ne u t with rfl | hut
    · obtain ⟨hp, hready⟩ := hnew p (hself.symm.trans hu)
      exact (pointOk_of_unclaimed hp).mpr hready
    · exact h.points u p ((hne u hut).symm.trans hu)
  · intro u v p q r hu hv hp hq
    exact h.alone u v p q r ((hclaims u p r hp).mp hu) ((hclaims v q r hq).mp hv) hp hq
  · intro c hc
    obtain ⟨q, hq, hat⟩ := h.cells c hc
    refine ⟨q, hq, ?_⟩
    cases hat with
    | free hseq htail hhead => exact .free hseq htail hhead
    | writing u p hu hp =>
      exact .writing u p ((hclaims u p q (Pc.claimed_of_pushing hp)).mpr hu) hp
    | published value hpub => exact .published value hpub
    | taking u p hu hp =>
      exact .taking u p ((hclaims u p q (Pc.claimed_of_popping hp)).mpr hu) hp

/-! ## The claims -/

omit [DecidableEq T] in
/-- A cell whose sequence word has reached the tail's position is free for it. -/
theorem Inv.free_at_tail {z : Size} {s : State T} (h : Inv z s)
    (hready : s.mem.ring.tail ≤ s.mem.ring.seq (z.cell s.mem.ring.tail)) :
    s.mem.ring.seq (z.cell s.mem.ring.tail) = s.mem.ring.tail ∧
      s.mem.ring.tail < s.mem.ring.head + z.capacity := by
  have hcap := z.two_le_capacity
  have hle := h.head_le
  have hwindow := h.window
  obtain ⟨pos, hcell, hat⟩ := h.cells _ (z.cell_le s.mem.ring.tail)
  have hsucc : s.mem.ring.tail ≠ pos + 1 := fun heq =>
    z.cell_succ_ne pos (heq ▸ hcell.symm)
  cases hat with
  | free hseq htail hhead =>
    obtain rfl : pos = s.mem.ring.tail := z.cell_inj hcell (by omega) (by omega)
    exact ⟨hseq, hhead⟩
  | writing t pc hpc hclaim =>
    obtain ⟨_, hw⟩ := (h.points t pc hpc).writing hclaim
    have hseq := hw.seq
    have htail := hw.tail
    rw [hcell] at hseq
    omega
  | published value hpub =>
    have hseq := hpub.seq
    have htail := hpub.tail
    rw [hcell] at hseq
    exact absurd (show s.mem.ring.tail = pos + 1 by omega) hsucc
  | taking t pc hpc hclaim =>
    obtain ⟨_, ht⟩ := (h.points t pc hpc).taking hclaim
    have hseq := ht.seq
    have hhead := ht.head
    rw [hcell] at hseq
    exact absurd (show s.mem.ring.tail = pos + 1 by omega) hsucc

omit [DecidableEq T] in
/-- A cell whose sequence word has passed the head's position is published there. -/
theorem Inv.published_at_head {z : Size} {s : State T} (h : Inv z s)
    (hready : s.mem.ring.head + 1 ≤ s.mem.ring.seq (z.cell s.mem.ring.head)) :
    Published z s.mem s.mem.ring.head (s.mem.ring.val (z.cell s.mem.ring.head)) := by
  have hcap := z.two_le_capacity
  have hwindow := h.window
  obtain ⟨pos, hcell, hat⟩ := h.cells _ (z.cell_le s.mem.ring.head)
  cases hat with
  | free hseq htail hhead =>
    rw [hcell] at hseq
    have heq : pos = s.mem.ring.head := z.cell_inj hcell (by omega) (by omega)
    omega
  | writing t pc hpc hclaim =>
    obtain ⟨_, hw⟩ := (h.points t pc hpc).writing hclaim
    have hseq := hw.seq
    have htail := hw.tail
    rw [hcell] at hseq
    have heq : pos = s.mem.ring.head := z.cell_inj hcell (by omega) (by omega)
    omega
  | published value hpub =>
    have hhead := hpub.head
    have htail := hpub.tail
    have heq : pos = s.mem.ring.head := z.cell_inj hcell (by omega) (by omega)
    subst heq
    obtain rfl := hpub.val
    exact hpub
  | taking t pc hpc hclaim =>
    obtain ⟨_, ht⟩ := (h.points t pc hpc).taking hclaim
    have hseq := ht.seq
    have hhead := ht.head
    rw [hcell] at hseq
    omega

/-! ## Every access keeps it -/

theorem Inv.claimTail {z : Size} {s : State T} (h : Inv z s) {t : T} {value : Int} {pos : Nat}
    (ht : s.pc t = some (.pushExchange value pos)) (htail : s.mem.ring.tail = pos) :
    Inv z (s.move t ⟨{ s.mem.ring with tail := pos + 1 }, s.mem.pushed ++ [value], s.mem.popped⟩
      (some (.pushWrite value pos))) := by
  subst htail
  obtain ⟨hseq, hroom⟩ := h.free_at_tail (h.points t _ ht)
  have hpushed := h.pushed
  have hle := h.head_le
  have hvalue : (s.mem.pushed ++ [value])[s.mem.ring.tail]? = some value := by
    rw [← hpushed]
    exact List.getElem?_concat_length
  have hwriting : Writing z
      ⟨{ s.mem.ring with tail := s.mem.ring.tail + 1 }, s.mem.pushed ++ [value], s.mem.popped⟩
      s.mem.ring.tail value :=
    ⟨hseq, hle, Nat.lt_succ_self _, by have := z.two_le_capacity; show _ + 1 ≤ _; omega, hvalue⟩
  refine h.access s.mem.ring.tail ht ?_ (fun _ => le_rfl) (fun q hq => nomatch hq) ?_ ?_ ?_ (hle.trans (Nat.le_succ _))
    hroom ?_ ?_ ?_
  · intro q hq
    refine ⟨rfl, rfl, le_rfl, id, Nat.le_succ _, ?_, ?_, List.prefix_append _ _⟩
    · intro hle
      rcases Nat.eq_or_lt_of_le hle with heq | hlt
      · exact absurd (congrArg z.cell heq.symm) hq
      · exact hlt
    · intro hle
      rcases Nat.eq_or_lt_of_le hle with heq | hlt
      · exact absurd (by rw [heq, z.cell_add]) hq
      · exact hlt
  · -- nobody is at a free cell
    intro u p q _ hu hp hcell
    rcases (h.points u p hu).claimed hp with ⟨_, hw⟩ | ⟨_, hw⟩
    · have hq := hw.seq
      have hqt := hw.tail
      rw [hcell] at hq
      omega
    · have hq := hw.seq
      rw [hcell] at hq
      have heq : s.mem.ring.tail = q + 1 := hseq.symm.trans hq
      rw [heq] at hcell
      exact z.cell_succ_ne q hcell.symm
  · show (s.mem.pushed ++ [value]).length = s.mem.ring.tail + 1
    rw [List.length_append, hpushed]
    rfl
  · show s.mem.popped = (s.mem.pushed ++ [value]).take s.mem.ring.head
    rw [List.take_append_of_le_length (by omega)]
    exact h.popped
  · rintro p ⟨⟩
    exact hwriting
  · rintro p q ⟨⟩ ⟨⟩
    rfl
  · exact ⟨_, rfl, .writing t _ (s.move_pc_self t _ _) rfl⟩

theorem Inv.write {z : Size} {s : State T} (h : Inv z s) {t : T} {value : Int} {pos : Nat}
    (ht : s.pc t = some (.pushWrite value pos)) :
    Inv z (s.move t
      { s.mem with ring := { s.mem.ring with
          val := Function.update s.mem.ring.val (z.cell pos) value } }
      (some (.pushPublish value pos))) := by
  have hw : Writing z s.mem pos value := h.points t _ ht
  refine h.access pos ht ?_ (fun _ => le_rfl) ?_ ?_ h.pushed h.popped h.head_le h.window ?_ ?_ ?_
  · intro q hq
    exact ⟨rfl, Function.update_of_ne hq _ _, le_rfl, id, le_rfl, id, id, List.prefix_rfl⟩
  · rintro q ⟨⟩
    rfl
  · intro u p q hut hu hp
    exact h.apart hut ht hu rfl hp
  · rintro p ⟨⟩
    exact ⟨⟨hw.seq, hw.head, hw.tail, hw.window, hw.value⟩, Function.update_self ..⟩
  · rintro p q ⟨⟩ ⟨⟩
    rfl
  · exact ⟨pos, rfl, .writing t _ (s.move_pc_self t _ _) rfl⟩

/-- Sequence words only grow. -/
theorem seq_le_update {r : Ring} {c n : Nat} (h : r.seq c ≤ n) (c' : Nat) :
    r.seq c' ≤ Function.update r.seq c n c' := by
  rcases eq_or_ne c' c with rfl | hne
  · rw [Function.update_self]
    exact h
  · rw [Function.update_of_ne hne]

theorem Inv.publish {z : Size} {s : State T} (h : Inv z s) {t : T} {value : Int} {pos : Nat}
    (ht : s.pc t = some (.pushPublish value pos)) :
    Inv z (s.move t
      { s.mem with ring := { s.mem.ring with
          seq := Function.update s.mem.ring.seq (z.cell pos) (pos + 1) } } none) := by
  obtain ⟨hw, hval⟩ : Writing z s.mem pos value ∧ s.mem.ring.val (z.cell pos) = value :=
    h.points t _ ht
  refine h.access pos ht ?_ (seq_le_update (hw.seq.le.trans (Nat.le_succ pos))) ?_ ?_ h.pushed h.popped
    h.head_le h.window (fun _ hp => nomatch hp) (fun _ _ hp => nomatch hp) ?_
  · intro q hq
    exact ⟨Function.update_of_ne hq _ _, rfl, le_rfl, id, le_rfl, id, id, List.prefix_rfl⟩
  · rintro q ⟨⟩
    rfl
  · intro u p q hut hu hp
    exact h.apart hut ht hu rfl hp
  · exact ⟨pos, rfl, .published value
      ⟨Function.update_self .., hw.head, hw.tail, hw.window, hval, hw.value⟩⟩

theorem Inv.claimHead {z : Size} {s : State T} (h : Inv z s) {t : T} {pos : Nat}
    (ht : s.pc t = some (.popExchange pos)) (hhead : s.mem.ring.head = pos) :
    Inv z (s.move t ⟨{ s.mem.ring with head := pos + 1 }, s.mem.pushed,
      s.mem.popped ++ [s.mem.ring.val (z.cell pos)]⟩ (some (.popRead pos))) := by
  subst hhead
  have hpub := h.published_at_head (h.points t _ ht)
  refine h.access s.mem.ring.head ht ?_ (fun _ => le_rfl) (fun q hq => nomatch hq) ?_ h.pushed ?_ hpub.tail
    (h.window.trans (Nat.add_le_add_right (Nat.le_succ _) _)) ?_ ?_ ?_
  · intro q hq
    refine ⟨rfl, rfl, Nat.le_succ _, ?_, le_rfl, id, id, List.prefix_rfl⟩
    intro hle
    rcases Nat.eq_or_lt_of_le hle with heq | hlt
    · exact absurd (congrArg z.cell heq.symm) hq
    · exact hlt
  · -- nobody is at a published cell
    intro u p q _ hu hp hcell
    rcases (h.points u p hu).claimed hp with ⟨_, hw⟩ | ⟨_, hw⟩
    · have heq : q = s.mem.ring.head + 1 := by
        rw [← hw.seq, hcell, hpub.seq]
      rw [heq] at hcell
      exact z.cell_succ_ne _ hcell
    · have heq : q + 1 = s.mem.ring.head + 1 := by
        rw [← hw.seq, hcell, hpub.seq]
      have hlt := hw.head
      omega
  · show s.mem.popped ++ [s.mem.ring.val (z.cell s.mem.ring.head)] =
      s.mem.pushed.take (s.mem.ring.head + 1)
    rw [List.take_add_one, hpub.value, h.popped]
    rfl
  · rintro p ⟨⟩
    exact ⟨hpub.seq, Nat.lt_succ_self _, hpub.window, hpub.value⟩
  · rintro p q ⟨⟩ ⟨⟩
    rfl
  · exact ⟨_, rfl, .taking t _ (s.move_pc_self t _ _) rfl⟩

theorem Inv.take {z : Size} {s : State T} (h : Inv z s) {t : T} {pos : Nat}
    (ht : s.pc t = some (.popRead pos)) :
    Inv z (s.move t s.mem (some (.popRelease pos (s.mem.ring.val (z.cell pos))))) := by
  have hw : Taking z s.mem pos (s.mem.ring.val (z.cell pos)) := h.points t _ ht
  refine h.access pos ht (fun q _ => .refl z s.mem q) (fun _ => le_rfl) ?_ ?_ h.pushed h.popped h.head_le
    h.window ?_ ?_ ?_
  · rintro q ⟨⟩
    rfl
  · intro u p q hut hu hp
    exact h.apart hut ht hu rfl hp
  · rintro p ⟨⟩
    exact hw
  · rintro p q ⟨⟩ ⟨⟩
    rfl
  · exact ⟨pos, rfl, .taking t _ (s.move_pc_self t _ _) rfl⟩

theorem Inv.release {z : Size} {s : State T} (h : Inv z s) {t : T} {pos : Nat} {out : Int}
    (ht : s.pc t = some (.popRelease pos out)) :
    Inv z (s.move t
      { s.mem with ring := { s.mem.ring with
          seq := Function.update s.mem.ring.seq (z.cell pos) (pos + z.capacity) } } none) := by
  have hw : Taking z s.mem pos out := h.points t _ ht
  have hcap := z.two_le_capacity
  have hseq := hw.seq
  have hhead := hw.head
  refine h.access pos ht ?_ (seq_le_update (by omega)) ?_ ?_ h.pushed h.popped
    h.head_le h.window (fun _ hp => nomatch hp) (fun _ _ hp => nomatch hp) ?_
  · intro q hq
    exact ⟨Function.update_of_ne hq _ _, rfl, le_rfl, id, le_rfl, id, id, List.prefix_rfl⟩
  · rintro q ⟨⟩
    rfl
  · intro u p q hut hu hp
    exact h.apart hut ht hu rfl hp
  · -- the cell is free for the position one lap on
    refine ⟨pos + z.capacity, z.cell_add pos, .free ?_ hw.window ?_⟩
    · show Function.update s.mem.ring.seq (z.cell pos) (pos + z.capacity)
        (z.cell (pos + z.capacity)) = pos + z.capacity
      rw [z.cell_add, Function.update_self]
    · exact Nat.add_lt_add_right hhead _

/-- **Every access keeps the invariant.** -/
theorem inv_effect {z : Size} {s : State T} (h : Inv z s) {t : T} {pc : Pc} {m' : Traced}
    {pc' : Option Pc} (ht : s.pc t = some pc) (he : Effect z s.mem pc m' pc') :
    Inv z (s.move t m' pc') := by
  cases he with
  | read pc pc' hpc hpc' =>
    refine h.reader (fun p hp => ?_) hpc'
    obtain rfl := Option.some.inj (ht.symm.trans hp)
    exact hpc
  | claimTail value pos htail => exact h.claimTail ht htail
  | write value pos => exact h.write ht
  | publish value pos => exact h.publish ht
  | claimHead pos hhead => exact h.claimHead ht hhead
  | take pos => exact h.take ht
  | release pos out => exact h.release ht

omit [DecidableEq T] in
theorem inv_init (z : Size) : Inv z (⟨⟨init, [], []⟩, fun _ => none⟩ : State T) where
  pushed := rfl
  popped := rfl
  head_le := le_rfl
  window := Nat.zero_le _
  points := fun _ _ h => nomatch h
  alone := fun _ _ _ _ _ h => nomatch h
  cells := by
    intro c hc
    have hlt : c < z.capacity := Nat.lt_succ_of_le hc
    have hcell : z.cell c = c := by rw [z.cell_eq_mod, Nat.mod_eq_of_lt hlt]
    refine ⟨c, hcell, .free hcell (Nat.zero_le c) ?_⟩
    show c < 0 + z.capacity
    rw [Nat.zero_add]
    exact hlt

/-- A call starts with an access that has claimed nothing. -/
theorem Pc.start_ready (z : Size) (r : Ring) (op : Op) :
    (Pc.start op).claimed = none ∧ Ready z r (Pc.start op) := by
  cases op <;> exact ⟨rfl, trivial⟩

/-- **The invariant holds at every instant**, whatever the threads and their order. -/
theorem inv_of_execution {z : Size} (e : (system T z).Execution) :
    ∀ k ≤ e.labels.length, Inv z (e.state k) := by
  refine Program.invariant_of_steps (inv_init z) ?_ ?_ ?_ e
  · intro s t op h ht
    refine h.reader (fun p hp => ?_) ?_
    · rw [ht] at hp
      cases hp
    · rintro p ⟨⟩
      exact Pc.start_ready z s.mem.ring op
  · intro s t pc m' pc' h ht hadv
    have he := effect_advance z s.mem pc
    rw [hadv] at he
    exact inv_effect h ht he
  · intro s t pc m' res h ht hadv
    have he := effect_advance z s.mem pc
    rw [hadv] at he
    exact inv_effect h ht he

end Ring

end MojoHttp
