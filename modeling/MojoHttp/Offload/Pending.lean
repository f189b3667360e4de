import MojoHttp.Ring.Hosted

/-!
# What the pool has pending (`offload.mojo`)

The loop asks its pool two questions before it waits: whether a lane's ring holds a job no thread
has taken (`jobs_pending`), and whether the completion ring holds something for it
(`done_pending`). Both ask `is_empty` of a ring that other threads push to and pop from meanwhile.

* **`program`** — the rings of a pool, their calls and the two questions, one atomic access a step.
* **`empty_unless_overtaken`** — an answer "empty" was true at an instant of the call, unless a pop
  released the cell that was looked at.
* **`overtaken_looks`** — when one did, the answer may be false at every instant.

With rings (`ring_enabled`).
-/

namespace MojoHttp

namespace Offload

open MojoHttp.Ring (Traced NothingAtHead)
open Threads (Next Program ReturnsAt InnerSteps pc_of_call)

/-- `OFFLOAD_MAX_INFLIGHT`. -/
def maxInflight : Nat := 256

/-- What the rules of a pool are: `elastic`, and how many lanes it serves. -/
structure Rules where
  elastic : Bool
  lanes : Nat

/-- `job_rings[lane]`, or `done_ring`. -/
inductive RingId where
  | job (lane : Nat)
  | done
  deriving Repr, DecidableEq

def RingId.size : RingId → Ring.Size
  | .job _ => Ring.Size.ofCapacity maxInflight
  | .done => Ring.Size.ofCapacity (maxInflight * 2)

/-- The rings of a pool. -/
abbrev Rings := RingId → Traced

def Rings.init : Rings := fun _ => ⟨Ring.init, [], []⟩

namespace Pending

/-! ## The calls -/

inductive Op where
  | ring (r : RingId) (op : Ring.Op)
  | jobsPending
  | donePending

inductive Res where
  | ring (res : Ring.Res)
  | pending (answer : Bool)
  deriving DecidableEq

inductive Pc where
  | ring (r : RingId) (pc : Ring.Pc)
  | elastic
  | jobs (lane : Nat) (pc : Ring.Pc)
  | done (pc : Ring.Pc)

/-- The next lane `jobs_pending` asks, if there is one. -/
def nextLane (c : Rules) (lane : Nat) : Next Pc Res :=
  if lane < c.lanes then .goto (.jobs lane (Ring.Pc.start .isEmpty)) else .ret (.pending false)

/-- One access to ring `r`; `behind` says where its thread goes from there. -/
def access (m : Rings) (r : RingId) (pc : Ring.Pc) (behind : Next Ring.Pc Ring.Res → Next Pc Res) :
    Rings × Next Pc Res :=
  let step := (Ring.program r.size).advance (m r) pc
  (Function.update m r step.1, behind step.2)

/-- A ring's own call. -/
def ringBehind (r : RingId) : Next Ring.Pc Ring.Res → Next Pc Res
  | .goto pc => .goto (.ring r pc)
  | .ret res => .ret (.ring res)

/-- `if not self.job_rings[lane].is_empty(): return True`. -/
def jobsBehind (c : Rules) (lane : Nat) : Next Ring.Pc Ring.Res → Next Pc Res
  | .goto pc => .goto (.jobs lane pc)
  | .ret (.isEmpty true) => nextLane c (lane + 1)
  | .ret _ => .ret (.pending true)

/-- `return not self.done_ring.is_empty()`. -/
def doneBehind : Next Ring.Pc Ring.Res → Next Pc Res
  | .goto pc => .goto (.done pc)
  | .ret (.isEmpty empty) => .ret (.pending (!empty))
  | .ret _ => .ret (.pending true)

def advance (c : Rules) (m : Rings) : Pc → Rings × Next Pc Res
  | .ring r pc => access m r pc (ringBehind r)
  | .elastic => (m, if c.elastic then nextLane c 0 else .ret (.pending false))
  | .jobs lane pc => access m (.job lane) pc (jobsBehind c lane)
  | .done pc => access m .done pc doneBehind

def Pc.start : Op → Pc
  | .ring r op => .ring r (Ring.Pc.start op)
  | .jobsPending => .elastic
  | .donePending => .done (Ring.Pc.start .isEmpty)

/-- The loop's two questions among the calls of the rings. -/
def program (c : Rules) : Program Rings Pc Op Res := ⟨Pc.start, advance c⟩

/-! ## The rings among it -/

/-- The ring a point accesses, and how. -/
def Pc.target : Pc → Option (RingId × Ring.Pc)
  | .ring r pc => some (r, pc)
  | .elastic => none
  | .jobs lane pc => some (.job lane, pc)
  | .done pc => some (.done, pc)

/-- The access to ring `r` a point is about to make. -/
def Pc.accessTo (r : RingId) (pc : Pc) : Option Ring.Pc :=
  pc.target.bind fun a => if a.1 = r then some a.2 else none

/-- A point that has made no access of a ring's call yet. -/
def Pc.Settled (pc : Pc) : Prop := ∀ r p, pc.target = some (r, p) → ∃ op, p = Ring.Pc.start op

theorem Pc.start_settled (op : Op) : (Pc.start op).Settled := by
  intro r p h
  cases op with
  | ring r' op =>
    cases h
    exact ⟨op, rfl⟩
  | jobsPending => cases h
  | donePending =>
    cases h
    exact ⟨.isEmpty, rfl⟩

theorem nextLane_goto {c : Rules} {lane : Nat} {pc : Pc} (h : nextLane c lane = .goto pc) :
    pc = .jobs lane (Ring.Pc.start .isEmpty) := by
  unfold nextLane at h
  split at h
  · exact (Next.goto.inj h).symm
  · cases h

theorem nextLane_settled {c : Rules} {lane : Nat} {pc : Pc} (h : nextLane c lane = .goto pc) :
    pc.Settled := by
  obtain rfl := nextLane_goto h
  rintro r p ⟨⟩
  exact ⟨.isEmpty, rfl⟩

/-- Behind an access a thread goes on with the call it is in, or is done with it. -/
structure Behind (r : RingId) (behind : Next Ring.Pc Ring.Res → Next Pc Res) : Prop where
  goto : ∀ p, ∃ pc, behind (.goto p) = .goto pc ∧ pc.target = some (r, p)
  ret : ∀ res pc, behind (.ret res) = .goto pc → pc.Settled

theorem behind_ring (r : RingId) : Behind r (ringBehind r) :=
  ⟨fun _ => ⟨_, rfl, rfl⟩, fun _ _ h => nomatch h⟩

theorem behind_done : Behind .done doneBehind :=
  ⟨fun _ => ⟨_, rfl, rfl⟩, fun res _ h => by cases res <;> cases h⟩

theorem behind_jobs (c : Rules) (lane : Nat) : Behind (.job lane) (jobsBehind c lane) := by
  refine ⟨fun _ => ⟨_, rfl, rfl⟩, fun res pc h => ?_⟩
  cases res with
  | isEmpty empty =>
    cases empty with
    | true => exact nextLane_settled h
    | false => cases h
  | _ => cases h

/-- **What a step of the program is**: one access to one ring, or none. -/
theorem advance_cases (c : Rules) (m : Rings) (pc : Pc) :
    (pc.target = none ∧ (advance c m pc).1 = m ∧
      ∀ pc', (advance c m pc).2 = .goto pc' → pc'.Settled) ∨
    ∃ r p behind, pc.target = some (r, p) ∧ Behind r behind ∧
      advance c m pc = access m r p behind := by
  cases pc with
  | ring r p => exact Or.inr ⟨r, p, _, rfl, behind_ring r, rfl⟩
  | elastic =>
    refine Or.inl ⟨rfl, rfl, fun pc' h => ?_⟩
    unfold advance at h
    dsimp only at h
    split at h
    · exact nextLane_settled h
    · cases h
  | jobs lane p => exact Or.inr ⟨_, p, _, rfl, behind_jobs c lane, rfl⟩
  | done p => exact Or.inr ⟨_, p, _, rfl, behind_done, rfl⟩

theorem accessTo_eq_some {r : RingId} {pc : Pc} {p : Ring.Pc} :
    pc.accessTo r = some p ↔ pc.target = some (r, p) := by
  unfold Pc.accessTo
  cases pc.target with
  | none => exact iff_of_false nofun nofun
  | some a =>
    obtain ⟨r', p'⟩ := a
    rw [Option.bind_some]
    split
    · rename_i h
      obtain rfl : r' = r := h
      exact ⟨fun heq => by rw [← Option.some.inj heq], fun heq => congrArg (Option.map Prod.snd) heq⟩
    · rename_i h
      refine iff_of_false nofun fun heq => h ?_
      exact congrArg Prod.fst (Option.some.inj heq)

theorem fresh_of_settled {nx : Next Pc Res} (h : ∀ pc, nx = .goto pc → pc.Settled) (r : RingId) :
    Ring.Fresh (nx.point.bind (Pc.accessTo r)) := by
  intro p hp
  cases nx with
  | ret res => cases hp
  | goto pc => exact h pc rfl r p (accessTo_eq_some.mp hp)

/-- **Every ring of the pool is accessed by the ring's calls only.** -/
def hosted (c : Rules) (r : RingId) : Ring.Hosted r.size (program c) where
  ring m := m r
  access := Pc.accessTo r
  start op := @fresh_of_settled (.goto (Pc.start op))
    (fun _ h => Next.goto.inj h ▸ Pc.start_settled op) r
  quiet m pc h := by
    rcases advance_cases c m pc with ⟨-, hmem, hnext⟩ | ⟨r', p, behind, htarget, hbehind, hadv⟩
    · exact ⟨congrFun hmem r, fresh_of_settled hnext r⟩
    · -- the access is to another ring
      have hne : r ≠ r' := fun heq => by
        rw [accessTo_eq_some.mpr (heq ▸ htarget)] at h
        cases h
      show (advance c m pc).1 r = m r ∧ Ring.Fresh ((advance c m pc).2.point.bind _)
      rw [hadv]
      refine ⟨Function.update_of_ne hne _ _, ?_⟩
      unfold access
      dsimp only
      generalize ((Ring.program r'.size).advance (m r') p).2 = nx
      cases nx with
      | goto q =>
        obtain ⟨pc', hgoto, htarget'⟩ := hbehind.goto q
        rw [hgoto]
        intro q' hq'
        have hr := accessTo_eq_some.mp (show pc'.accessTo r = some q' from hq')
        rw [htarget'] at hr
        exact absurd (congrArg Prod.fst (Option.some.inj hr)).symm hne
      | ret res => exact fresh_of_settled (hbehind.ret res) r
  step m pc p h := by
    rcases advance_cases c m pc with ⟨htarget, -, -⟩ | ⟨r', p', behind, htarget, hbehind, hadv⟩
    · rw [accessTo_eq_some.mp h] at htarget
      cases htarget
    · rw [accessTo_eq_some.mp h] at htarget
      cases htarget
      show (advance c m pc).1 r = _ ∧ Ring.Follows _ ((advance c m pc).2.point.bind _)
      rw [hadv]
      refine ⟨Function.update_self .., ?_⟩
      unfold access
      dsimp only
      generalize ((Ring.program r.size).advance (m r) p).2 = nx
      cases nx with
      | goto q =>
        obtain ⟨pc', hgoto, htarget⟩ := hbehind.goto q
        rw [hgoto]
        exact accessTo_eq_some.mpr htarget
      | ret res => exact fresh_of_settled (hbehind.ret res) r

/-! ## Executions -/

/-- No published value is in the head cell of ring `r`. -/
def NothingAt (m : Rings) (r : RingId) : Prop :=
  ∀ value, ¬ Ring.Holds r.size (m r).ring (m r).ring.head value

variable {T : Type} [DecidableEq T] {c : Rules}

abbrev Execution (T : Type) [DecidableEq T] (c : Rules) := ((program c).system T Rings.init).Execution

/-- At an instant behind step `i`, up to the one step `j` is taken at, nothing was at the head of
ring `r`. -/
def EmptyAt (e : Execution T c) (r : RingId) (i j : Nat) : Prop :=
  ∃ k, i < k ∧ k ≤ j ∧ NothingAt (e.state k).mem r

/-- Thread `t` has read a position from the head of ring `r` and is about to read the sequence word
of its cell, and step `k` is that of a pop that releases this cell. -/
def Overtaken (e : Execution T c) (t : T) (r : RingId) (k : Nat) : Prop := (hosted c r).Overtaken e t k

theorem EmptyAt.until {e : Execution T c} {r : RingId} {i k j : Nat} (h : EmptyAt e r i k)
    (hkj : k ≤ j) : EmptyAt e r i j := by
  obtain ⟨m, him, hmk, hnone⟩ := h
  exact ⟨m, him, hmk.trans hkj, hnone⟩

/-! ### What the points of a call are -/

/-- The points of a call: those of a ring's call, or those at which `is_empty` is asked. -/
def Belongs : Op → Pc → Prop
  | .ring r op, .ring r' p => r' = r ∧ p.op = op
  | .jobsPending, .elastic => True
  | .jobsPending, .jobs _ p => p.op = .isEmpty
  | .donePending, .done p => p.op = .isEmpty
  | _, _ => False

theorem Belongs.ring {r : RingId} {op : Ring.Op} {pc : Pc} (h : Belongs (.ring r op) pc) :
    ∃ p, pc = .ring r p ∧ p.op = op := by
  cases pc with
  | ring r' p =>
    obtain ⟨rfl, hop⟩ := h
    exact ⟨p, rfl, hop⟩
  | _ => cases h

theorem Belongs.jobs {pc : Pc} (h : Belongs .jobsPending pc) :
    pc = .elastic ∨ ∃ lane p, pc = .jobs lane p := by
  cases pc with
  | elastic => exact Or.inl rfl
  | jobs lane p => exact Or.inr ⟨lane, p, rfl⟩
  | _ => cases h

theorem Belongs.done {pc : Pc} (h : Belongs .donePending pc) :
    ∃ p, pc = .done p ∧ p.op = .isEmpty := by
  cases pc with
  | done p => exact ⟨p, rfl, h⟩
  | _ => cases h

theorem belongs_start (op : Op) : Belongs op (Pc.start op) := by
  cases op with
  | ring r op => exact ⟨rfl, Ring.op_start op⟩
  | jobsPending => trivial
  | donePending => rfl

theorem belongs_nextLane {lane : Nat} {pc : Pc} (h : nextLane c lane = .goto pc) :
    Belongs .jobsPending pc := by
  obtain rfl := nextLane_goto h
  rfl

/-- A step inside a call of a ring stays in it. -/
theorem op_goto {r : RingId} {m : Rings} {p q : Ring.Pc}
    (h : ((Ring.program r.size).advance (m r) p).2 = .goto q) : q.op = p.op :=
  (Ring.advance_goto (Prod.ext rfl h)).1

theorem belongs_advance {op : Op} {m m' : Rings} {pc pc' : Pc} (hpc : Belongs op pc)
    (h : advance c m pc = (m', .goto pc')) : Belongs op pc' := by
  have hnext : (advance c m pc).2 = .goto pc' := congrArg Prod.snd h
  cases op with
  | ring r op =>
    obtain ⟨p, rfl, hop⟩ := hpc.ring
    have hbehind : ringBehind r ((Ring.program r.size).advance (m r) p).2 = .goto pc' := hnext
    cases hres : ((Ring.program r.size).advance (m r) p).2 with
    | goto q =>
      rw [hres] at hbehind
      cases hbehind
      exact ⟨rfl, (op_goto hres).trans hop⟩
    | ret res =>
      rw [hres] at hbehind
      cases hbehind
  | jobsPending =>
    cases pc with
    | elastic =>
      unfold advance at hnext
      dsimp only at hnext
      split at hnext
      · exact belongs_nextLane hnext
      · cases hnext
    | jobs lane p =>
      have hbehind : jobsBehind c lane
        ((Ring.program (RingId.job lane).size).advance (m (.job lane)) p).2 = .goto pc' := hnext
      cases hres : ((Ring.program (RingId.job lane).size).advance (m (.job lane)) p).2 with
      | goto q =>
        rw [hres] at hbehind
        cases hbehind
        exact (op_goto hres).trans hpc
      | ret res =>
        rw [hres] at hbehind
        cases res with
        | isEmpty empty =>
          cases empty with
          | true => exact belongs_nextLane hbehind
          | false => cases hbehind
        | _ => cases hbehind
    | _ => cases hpc
  | donePending =>
    obtain ⟨p, rfl, hop⟩ := hpc.done
    have hbehind : doneBehind ((Ring.program RingId.done.size).advance (m .done) p).2 = .goto pc' :=
      hnext
    cases hres : ((Ring.program RingId.done.size).advance (m .done) p).2 with
    | goto q =>
      rw [hres] at hbehind
      cases hbehind
      exact (op_goto hres).trans hop
    | ret res =>
      rw [hres] at hbehind
      cases res <;> cases hbehind

section

variable {e : Execution T c} {t : T} {i j : Nat}

theorem belongs_of_call {op : Op} (hcall : e.labels[i]? = some ⟨t, .call op⟩)
    (hinner : InnerSteps e t i j) {k : Nat} (hik : i < k) (hkj : k ≤ j) (hk : k ≤ e.labels.length)
    {pc : Pc} (hpc : (e.state k).pc t = some pc) : Belongs op pc := by
  obtain ⟨pc', hpc', hbelongs⟩ := pc_of_call hcall (belongs_start op)
    (fun _ _ _ _ hq hadv => belongs_advance hq hadv) hinner hik hkj hk
  obtain rfl := Option.some.inj (hpc.symm.trans hpc')
  exact hbelongs

/-! ### A look at a ring -/

/-- **An access that answers "empty"** was behind an instant at which nothing was at the head. -/
theorem emptyAt_of_look {op : Op} (hcall : e.labels[i]? = some ⟨t, .call op⟩) {r : RingId}
    (hj : j ≤ e.labels.length) (hnot : ∀ k, i < k → k < j → ¬ Overtaken e t r k) {k : Nat}
    (hik : i < k) (hkj : k ≤ j) {pc : Pc} {p : Ring.Pc} (hpc : (e.state k).pc t = some pc)
    (htarget : pc.target = some (r, p)) {res : Ring.Res}
    (hres : ((Ring.program r.size).advance ((e.state k).mem r) p).2 = .ret res)
    (hempty : Ring.Hosted.SaysEmpty res) : EmptyAt e r i k := by
  have hp : ((hosted c r).view (e.state k)).pc t = some p := by
    rw [Ring.Hosted.view_pc, hpc]
    exact accessTo_eq_some.mpr htarget
  have hstart : ∀ q, ((hosted c r).view (e.state (i + 1))).pc t = some q →
      Ring.Hosted.looking q = none := by
    intro q hq
    rw [Ring.Hosted.view_pc, Threads.pc_of_start hcall] at hq
    exact Ring.Hosted.looking_fresh ((hosted c r).start op) hq
  obtain ⟨pos, hlook, hseq⟩ := Ring.Hosted.looking_of_empty
    (s := (hosted c r).view (e.state k)) hres hempty
  rcases (hosted c r).look rfl e hj hstart hnot hik hkj hp hlook with hsome | hpublished
  · exact hsome
  · exact absurd hpublished hseq

/-! ### A ring's own call -/

theorem emptyAt_of_ring {r : RingId} {op : Ring.Op} {res : Ring.Res}
    (hcall : e.labels[i]? = some ⟨t, .call (.ring r op)⟩) (hret : ReturnsAt e t i j (.ring res))
    (hempty : Ring.Hosted.SaysEmpty res) (hnot : ∀ k, i < k → k < j → ¬ Overtaken e t r k) :
    EmptyAt e r i j := by
  obtain ⟨pc, hpc, hadv⟩ := hret.step
  obtain ⟨p, rfl, -⟩ := (belongs_of_call hcall hret.inner hret.lt le_rfl hret.lt_length.le hpc).ring
  have hnext : ringBehind r ((Ring.program r.size).advance ((e.state j).mem r) p).2 =
      .ret (.ring res) := congrArg Prod.snd hadv
  cases hres : ((Ring.program r.size).advance ((e.state j).mem r) p).2 with
  | goto q =>
    rw [hres] at hnext
    cases hnext
  | ret res' =>
    rw [hres] at hnext
    cases hnext
    exact emptyAt_of_look hcall hret.lt_length.le hnot hret.lt le_rfl hpc rfl hres hempty

/-! ### `jobs_pending` -/

/-- Where the scan comes to a lane from. -/
theorem advance_jobs {m m' : Rings} {pc : Pc} {lane : Nat} {p : Ring.Pc}
    (h : advance c m pc = (m', .goto (.jobs lane p))) :
    lane = 0 ∨ (∃ q, pc = .jobs lane q) ∨ ∃ n q, lane = n + 1 ∧ pc = .jobs n q ∧
      ((Ring.program (RingId.job n).size).advance (m (.job n)) q).2 = .ret (.isEmpty true) := by
  have hnext : (advance c m pc).2 = .goto (.jobs lane p) := congrArg Prod.snd h
  cases pc with
  | elastic =>
    unfold advance at hnext
    dsimp only at hnext
    split at hnext
    · cases nextLane_goto hnext
      exact Or.inl rfl
    · cases hnext
  | ring r q =>
    have hcall : ringBehind r ((Ring.program r.size).advance (m r) q).2 = _ := hnext
    generalize ((Ring.program r.size).advance (m r) q).2 = nx at hcall
    cases nx <;> cases hcall
  | done q =>
    have hcall : doneBehind ((Ring.program RingId.done.size).advance (m .done) q).2 = _ := hnext
    generalize ((Ring.program RingId.done.size).advance (m .done) q).2 = nx at hcall
    cases nx with
    | goto q' => cases hcall
    | ret res => cases res <;> cases hcall
  | jobs n q =>
    have hcall : jobsBehind c n
      ((Ring.program (RingId.job n).size).advance (m (.job n)) q).2 = _ := hnext
    cases hres : ((Ring.program (RingId.job n).size).advance (m (.job n)) q).2 with
    | goto q' =>
      rw [hres] at hcall
      cases hcall
      exact Or.inr (Or.inl ⟨q, rfl⟩)
    | ret res =>
      rw [hres] at hcall
      cases res with
      | isEmpty empty =>
        cases empty with
        | true =>
          cases nextLane_goto hcall
          exact Or.inr (Or.inr ⟨n, q, rfl, rfl, hres⟩)
        | false => cases hcall
      | _ => cases hcall

/-- **The lanes the scan has left behind.** -/
theorem lanes_empty (hcall : e.labels[i]? = some ⟨t, .call .jobsPending⟩)
    (hinner : InnerSteps e t i j) (hj : j ≤ e.labels.length)
    (hnot : ∀ r k, i < k → k < j → ¬ Overtaken e t r k) {k : Nat} (hik : i < k) (hkj : k ≤ j)
    {lane : Nat} {p : Ring.Pc} (hpc : (e.state k).pc t = some (.jobs lane p)) :
    ∀ n < lane, EmptyAt e (.job n) i k := by
  induction k, (show i + 1 ≤ k from hik) using Nat.le_induction generalizing lane p with
  | base =>
    rw [Threads.pc_of_start hcall] at hpc
    cases hpc
  | succ k hik ih =>
    intro n hn
    obtain ⟨⟨u, act⟩, hl⟩ := e.exists_label (show k < e.labels.length by omega)
    rcases eq_or_ne t u with rfl | hne
    · obtain rfl := hinner k act (by omega) (by omega) hl
      obtain ⟨pc, pc', m', hat, hadv, hs⟩ := Program.next_go (e.steps hl)
      rw [hs, Threads.State.move_pc_self] at hpc
      obtain rfl := Option.some.inj hpc
      rcases advance_jobs hadv with rfl | ⟨q, rfl⟩ | ⟨last, q, rfl, rfl, hres⟩
      · cases hn
      · exact (ih (by omega) (by omega) hat n hn).until (Nat.le_succ k)
      · -- the lane it leaves now, or one it had left before
        rcases Nat.lt_succ_iff_lt_or_eq.mp hn with hlt | rfl
        · exact (ih (by omega) (by omega) hat n hlt).until (Nat.le_succ k)
        · exact (emptyAt_of_look hcall hj (hnot _) (by omega) (by omega) hat rfl hres rfl).until
            (Nat.le_succ k)
    · rw [Program.next_pc_of_ne (e.steps hl) hne] at hpc
      exact (ih (by omega) (by omega) hpc n hn).until (Nat.le_succ k)

theorem nextLane_ret {lane : Nat} {res : Res} (h : nextLane c lane = .ret res) :
    c.lanes ≤ lane ∧ res = .pending false := by
  unfold nextLane at h
  split at h
  · cases h
  · exact ⟨by omega, (Next.ret.inj h).symm⟩

theorem emptyAt_of_jobs (helastic : c.elastic = true)
    (hcall : e.labels[i]? = some ⟨t, .call .jobsPending⟩) (hret : ReturnsAt e t i j (.pending false))
    (hnot : ∀ r k, i < k → k < j → ¬ Overtaken e t r k) : ∀ lane < c.lanes, EmptyAt e (.job lane) i j := by
  have hj := hret.lt_length.le
  obtain ⟨pc, hpc, hadv⟩ := hret.step
  have hnext : (advance c (e.state j).mem pc).2 = .ret (.pending false) := congrArg Prod.snd hadv
  intro lane hlane
  rcases (belongs_of_call hcall hret.inner hret.lt le_rfl hj hpc).jobs with rfl | ⟨last, p, rfl⟩
  · -- there is no lane
    unfold advance at hnext
    rw [helastic] at hnext
    have hlanes := (nextLane_ret hnext).1
    omega
  · have hbehind : jobsBehind c last
      ((Ring.program (RingId.job last).size).advance ((e.state j).mem (.job last)) p).2 = _ := hnext
    cases hres : ((Ring.program (RingId.job last).size).advance ((e.state j).mem (.job last)) p).2 with
    | goto q =>
      rw [hres] at hbehind
      cases hbehind
    | ret res =>
      rw [hres] at hbehind
      cases res with
      | isEmpty empty =>
        cases empty with
        | false => cases hbehind
        | true =>
          have hlanes := (nextLane_ret hbehind).1
          rcases Nat.lt_or_eq_of_le (show lane ≤ last by omega) with hlt | rfl
          · exact lanes_empty hcall hret.inner hj hnot hret.lt le_rfl hpc lane hlt
          · exact emptyAt_of_look hcall hj (hnot _) hret.lt le_rfl hpc rfl hres rfl
      | _ => cases hbehind

/-! ### `done_pending` -/

/-- A thread that releases a cell of ring `r` is in a pop of that ring. -/
theorem pop_of_releases {k : Nat} (hk : k ≤ e.labels.length) {r : RingId} {u : T} {pos : Nat}
    (h : Ring.Hosted.Releases ((hosted c r).view (e.state k)) u pos) :
    ∃ i, i < k ∧ e.labels[i]? = some ⟨u, .call (.ring r .pop)⟩ ∧ InnerSteps e u i k := by
  obtain ⟨out, hp⟩ := h
  rw [Ring.Hosted.view_pc] at hp
  cases hpc : (e.state k).pc u with
  | none =>
    rw [hpc] at hp
    cases hp
  | some pc =>
    rw [hpc] at hp
    have htarget := accessTo_eq_some.mp (show pc.accessTo r = some (.popRelease pos out) from hp)
    obtain ⟨i, op, hik, hcall, hinner⟩ := Threads.call_of_pc hk hpc
    have hbelongs := belongs_of_call hcall hinner hik le_rfl hk hpc
    refine ⟨i, hik, ?_, hinner⟩
    cases pc with
    | ring r' p =>
      cases htarget
      cases op with
      | ring r op =>
        obtain ⟨p, heq, hop⟩ := hbelongs.ring
        cases heq
        rw [hcall, ← hop]
        rfl
      | _ => cases hbelongs
    | elastic => cases htarget
    | jobs lane p =>
      cases htarget
      cases op <;> cases hbelongs
    | done p =>
      cases htarget
      cases op <;> cases hbelongs

theorem emptyAt_of_done (hcall : e.labels[i]? = some ⟨t, .call .donePending⟩)
    (hret : ReturnsAt e t i j (.pending false))
    (hloop : ∀ (k : Nat) (u : T), e.labels[k]? = some ⟨u, .call (.ring .done .pop)⟩ → u = t) :
    EmptyAt e .done i j := by
  have hj := hret.lt_length.le
  obtain ⟨pc, hpc, hadv⟩ := hret.step
  obtain ⟨p, rfl, -⟩ := (belongs_of_call hcall hret.inner hret.lt le_rfl hj hpc).done
  have hbehind : doneBehind ((Ring.program RingId.done.size).advance ((e.state j).mem .done) p).2 =
      .ret (.pending false) := congrArg Prod.snd hadv
  -- whoever pops the completion ring is in this call
  have hnot : ∀ k, i < k → k < j → ¬ Overtaken e t .done k := by
    rintro k hik hkj ⟨q, pos, l, hq, hlook, hl, hrel⟩
    obtain ⟨n, -, hpop, -⟩ := pop_of_releases (by omega) hrel
    have hself : l.thread = t := hloop n l.thread hpop
    obtain ⟨out, hout⟩ := hrel
    rw [hself, hq] at hout
    cases Option.some.inj hout
    cases hlook
  cases hres : ((Ring.program RingId.done.size).advance ((e.state j).mem .done) p).2 with
  | goto q =>
    rw [hres] at hbehind
    cases hbehind
  | ret res =>
    rw [hres] at hbehind
    cases res with
    | isEmpty empty =>
      cases empty with
      | true => exact emptyAt_of_look hcall hj hnot hret.lt le_rfl hpc rfl hres rfl
      | false => cases hbehind
    | _ => cases hbehind

end

/-- **When an answer "empty" is true.** For any number of threads and any interleaving of their
accesses: when `is_empty` or `peek` answers that a ring is empty, and no pop released the cell
between the call's two reads, nothing was at the head of that ring at an instant of the call. So
`jobs_pending` answers False under the elastic rules only when each lane's ring had nothing at its
head at an instant of the scan. `done_pending` needs no such condition, because the loop that asks
it is the one that pops. -/
theorem empty_unless_overtaken (c : Rules) (e : Execution T c) (t : T) (i j : Nat) :
    (∀ r res, e.labels[i]? = some ⟨t, .call (.ring r .isEmpty)⟩ ∨
        e.labels[i]? = some ⟨t, .call (.ring r .peek)⟩ → ReturnsAt e t i j (.ring res) →
      res = .isEmpty true ∨ res = .peeked none →
      (∀ k, i < k → k < j → ¬ Overtaken e t r k) → EmptyAt e r i j) ∧
    (c.elastic = true → e.labels[i]? = some ⟨t, .call .jobsPending⟩ →
      ReturnsAt e t i j (.pending false) → (∀ r k, i < k → k < j → ¬ Overtaken e t r k) →
      ∀ lane < c.lanes, EmptyAt e (.job lane) i j) ∧
    (e.labels[i]? = some ⟨t, .call .donePending⟩ → ReturnsAt e t i j (.pending false) →
      (∀ (k : Nat) (u : T), e.labels[k]? = some ⟨u, .call (.ring .done .pop)⟩ → u = t) → EmptyAt e .done i j) := by
  refine ⟨?_, emptyAt_of_jobs, emptyAt_of_done⟩
  intro r res hcall hret hres hnot
  have hempty : Ring.Hosted.SaysEmpty res := by
    rcases hres with rfl | rfl <;> rfl
  rcases hcall with hcall | hcall
  · exact emptyAt_of_ring hcall hret hempty hnot
  · exact emptyAt_of_ring hcall hret hempty hnot

/-! ## A look that is overtaken -/

/-- Two jobs are pushed. Thread 2 asks `is_empty` and thread 3 `jobs_pending`; both read the head,
thread 1 pops the first job, and both read the sequence word of the cell it has released. -/
def overtakenLooks : List (Threads.Label Nat Op Res) :=
  [⟨0, .call (.ring (.job 0) (.push 7))⟩, ⟨0, .go⟩, ⟨0, .go⟩, ⟨0, .go⟩, ⟨0, .go⟩,
    ⟨0, .ret (.ring (.pushed true))⟩,
    ⟨0, .call (.ring (.job 0) (.push 8))⟩, ⟨0, .go⟩, ⟨0, .go⟩, ⟨0, .go⟩, ⟨0, .go⟩,
    ⟨0, .ret (.ring (.pushed true))⟩,
    ⟨2, .call (.ring (.job 0) .isEmpty)⟩, ⟨2, .go⟩, ⟨3, .call .jobsPending⟩, ⟨3, .go⟩, ⟨3, .go⟩,
    ⟨1, .call (.ring (.job 0) .pop)⟩, ⟨1, .go⟩, ⟨1, .go⟩, ⟨1, .go⟩, ⟨1, .go⟩,
    ⟨1, .ret (.ring (.popped (some 7)))⟩,
    ⟨2, .ret (.ring (.isEmpty true))⟩, ⟨3, .ret (.pending false)⟩]

theorem overtakenLooks_runs :
    (((program ⟨true, 1⟩).system Nat Rings.init).run ((program ⟨true, 1⟩).system Nat Rings.init).init
      overtakenLooks).isSome := by
  decide

/-- **An answer "empty" may be true at no instant of its call**: of `is_empty` and of
`jobs_pending` alike. -/
theorem empty_answer_on_a_published_ring :
    (¬ ∀ (e : Execution Nat ⟨true, 1⟩) (t i j : Nat) (r : RingId),
      e.labels[i]? = some ⟨t, .call (.ring r .isEmpty)⟩ →
        ReturnsAt e t i j (.ring (.isEmpty true)) →
        ∃ k, i ≤ k ∧ k ≤ j + 1 ∧ NothingAt (e.state k).mem r) ∧
    ¬ ∀ (e : Execution Nat ⟨true, 1⟩) (t i j : Nat), e.labels[i]? = some ⟨t, .call .jobsPending⟩ →
      ReturnsAt e t i j (.pending false) →
        ∃ k, i ≤ k ∧ k ≤ j + 1 ∧ NothingAt (e.state k).mem (.job 0) := by
  -- behind the two pushes a published value is at the head at every instant
  have hsome : ∀ k, 12 ≤ k → k ≤ 25 →
      ¬ NothingAt ((LabelledSystem.Execution.ofRun _ overtakenLooks overtakenLooks_runs).state k).mem
        (.job 0) := by
    intro k hge hle hnone
    have hholds : ∃ v ∈ [(7 : Int), 8], Ring.Holds (RingId.job 0).size
        (((LabelledSystem.Execution.ofRun _ overtakenLooks overtakenLooks_runs).state k).mem
          (.job 0)).ring
        (((LabelledSystem.Execution.ofRun _ overtakenLooks overtakenLooks_runs).state k).mem
          (.job 0)).ring.head v := by
      unfold Ring.Holds
      interval_cases k <;> decide
    obtain ⟨v, -, hv⟩ := hholds
    exact hnone v hv
  constructor
  · intro h
    obtain ⟨k, hge, hle, hnone⟩ := h (.ofRun _ overtakenLooks overtakenLooks_runs) 2 12 23 (.job 0) rfl
      ⟨by decide, rfl, by
        intro k act hik hkj hl
        interval_cases k <;> cases hl
        all_goals rfl⟩
    exact hsome k hge (by omega) hnone
  · intro h
    obtain ⟨k, hge, hle, hnone⟩ := h (.ofRun _ overtakenLooks overtakenLooks_runs) 3 14 24 rfl
      ⟨by decide, rfl, by
        intro k act hik hkj hl
        interval_cases k <;> cases hl
        all_goals rfl⟩
    exact hsome k (by omega) hle hnone

end Pending

end Offload

end MojoHttp
