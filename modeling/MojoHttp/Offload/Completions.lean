import MojoHttp.Offload.LoopWait

/-!
# Completions reach the loop

A slot the loop has submitted is at one place at every instant: waiting for a thread, with one
thread, once on the completion ring, or with the loop that has popped it.

* **`Slots`** — that invariant; **`Slots.step`** keeps it, one lemma for each step that hands a slot
  on and **`Slots.keep`** for the others.
* **`sound_of_execution`** — both invariants hold at every instant.
* **`loop_not_forgotten`** — a loop that is blocked with a completion on the ring has a poke coming,
  and a completion's push never finds the ring full.
-/

namespace MojoHttp

namespace Offload

open MojoHttp.Ring (Traced Inv)
open Threads (Next Program)

namespace LoopWait

variable {T : Type} [DecidableEq T] {loop : T}

/-! ## The slots that are out -/

/-- The completions on the ring. -/
def Mem.onRing (m : Mem) : List Int := m.done.queue

/-- The slot a thread has a job of and whose completion it has not put on the ring. -/
def Pc.holds : Pc → Option Nat
  | .push slot _ p => if p.claimed = none then some slot else none
  | _ => none

/-- The slot the loop has popped and not finished with. -/
def finishes (m : Mem) : Pc → Option Int
  | .drain p => p.claimed.bind fun pos => m.done.pushed[pos]?
  | .finish out => some out
  | _ => none

/-- No thread is to push slot `x`. -/
def Free (s : State T) (x : Nat) : Prop :=
  x ∉ s.mem.waiting ∧ ∀ t pc, s.pc t = some pc → pc.holds ≠ some x

/-- Each slot that is out is at one place: waiting, with one thread, once on the ring, or with the
loop. -/
structure Slots (loop : T) (s : State T) : Prop where
  bound : s.mem.offloaded.card ≤ maxInflight
  waiting : s.mem.waiting ⊆ s.mem.offloaded
  held : ∀ t pc, s.pc t = some pc → ∀ x, pc.holds = some x →
    x ∈ s.mem.offloaded ∧ x ∉ s.mem.waiting ∧
      ∀ u pc', s.pc u = some pc' → pc'.holds = some x → u = t
  onRing : ∀ v ∈ s.mem.onRing, ∃ x ∈ s.mem.offloaded, v = (x : Int) ∧ Free s x
  nodup : s.mem.onRing.Nodup
  finishing : ∀ pc, s.pc loop = some pc → ∀ v, finishes s.mem pc = some v →
    v ∉ s.mem.onRing ∧ ∃ x : Nat, v = x ∧ Free s x

omit [DecidableEq T] in
/-- **What is on the ring is out**, so it is no more than may be. -/
theorem Slots.length_le {s : State T} (h : Slots loop s) : s.mem.onRing.length ≤ maxInflight := by
  have hsub : s.mem.onRing.toFinset ⊆ s.mem.offloaded.image (fun x : Nat => (x : Int)) := by
    intro v hv
    obtain ⟨x, hx, rfl, -⟩ := h.onRing v (List.mem_toFinset.mp hv)
    exact Finset.mem_image_of_mem _ hx
  calc s.mem.onRing.length = s.mem.onRing.toFinset.card := (List.toFinset_card_of_nodup h.nodup).symm
    _ ≤ (s.mem.offloaded.image fun x : Nat => (x : Int)).card := Finset.card_le_card hsub
    _ ≤ s.mem.offloaded.card := Finset.card_image_le
    _ ≤ maxInflight := h.bound

/-- A slot nobody is to push stays so while no thread takes it on. -/
theorem Free.move {s : State T} {x : Nat} (h : Free s x) {t : T} {m' : Mem} {pc' : Option Pc}
    (hwaiting : x ∉ m'.waiting) (hnew : ∀ p, pc' = some p → p.holds ≠ some x) :
    Free (s.move t m' pc') x :=
  ⟨hwaiting, Threads.State.forall_move (fun u p _ hu => h.2 u p hu) hnew⟩

/-- **The rule of a step that hands no slot on**: its thread has at most what it had. -/
theorem Slots.keep {s : State T} (h : Slots loop s) {t : T} {pc' : Option Pc} {m' : Mem}
    (hoff : m'.offloaded = s.mem.offloaded) (hwaiting : m'.waiting = s.mem.waiting)
    (hring : m'.onRing = s.mem.onRing)
    (hholds : ∀ p x, pc' = some p → p.holds = some x → ∃ pc, s.pc t = some pc ∧ pc.holds = some x)
    (hfinishing : ∀ p v, t = loop → pc' = some p → finishes m' p = some v →
      ∃ pc, s.pc t = some pc ∧ finishes s.mem pc = some v)
    (hothers : ∀ p, t ≠ loop → s.pc loop = some p → finishes m' p = finishes s.mem p) :
    Slots loop (s.move t m' pc') := by
  have hfree : ∀ x, Free s x → Free (s.move t m' pc') x := by
    intro x hx
    refine hx.move (by rw [hwaiting]; exact hx.1) fun p hp heq => ?_
    obtain ⟨pc, hpc, hpcx⟩ := hholds p x hp heq
    exact hx.2 t pc hpc hpcx
  refine ⟨?_, ?_, ?_, ?_, ?_, ?_⟩
  · rw [s.move_mem, hoff]
    exact h.bound
  · rw [s.move_mem, hoff, hwaiting]
    exact h.waiting
  · -- whoever holds a slot held it before
    have hback : ∀ u p, (s.move t m' pc').pc u = some p → ∀ x, p.holds = some x →
        ∃ q, s.pc u = some q ∧ q.holds = some x := by
      refine Threads.State.forall_move (fun u p _ hu x hx => ⟨p, hu, hx⟩) fun p hp x hx => ?_
      exact hholds p x hp hx
    intro u p hu x hx
    obtain ⟨q, hq, hqx⟩ := hback u p hu x hx
    obtain ⟨hin, hout, honce⟩ := h.held u q hq x hqx
    refine ⟨by rw [s.move_mem, hoff]; exact hin, by rw [s.move_mem, hwaiting]; exact hout, ?_⟩
    intro v p' hv hp'
    obtain ⟨q', hq', hqx'⟩ := hback v p' hv x hp'
    exact honce v q' hq' hqx'
  · rw [s.move_mem, hring, hoff]
    intro v hv
    obtain ⟨x, hx, rfl, hxf⟩ := h.onRing v hv
    exact ⟨x, hx, rfl, hfree x hxf⟩
  · rw [s.move_mem, hring]
    exact h.nodup
  · rw [s.move_mem, hring]
    intro p hp v hv
    have hbefore : ∃ pc, s.pc loop = some pc ∧ finishes s.mem pc = some v := by
      rcases eq_or_ne t loop with rfl | hne
      · rw [s.move_pc_self] at hp
        exact hfinishing p v rfl hp hv
      · rw [s.move_pc_of_ne _ _ hne.symm] at hp
        exact ⟨p, hp, by rw [← hothers p hne hp]; exact hv⟩
    obtain ⟨pc, hpc, hfin⟩ := hbefore
    obtain ⟨hnot, x, rfl, hx⟩ := h.finishing pc hpc v hfin
    exact ⟨hnot, x, rfl, hfree x hx⟩

theorem Slots.submit {s : State T} (h : Slots loop s) {slot : Nat}
    (hroom : s.mem.offloaded.card < maxInflight) (hnew : slot ∉ s.mem.offloaded) :
    Slots loop (s.move loop { s.mem with
      offloaded := insert slot s.mem.offloaded
      waiting := insert slot s.mem.waiting } none) := by
  -- no slot that is out is the new one
  have hne : ∀ x ∈ s.mem.offloaded, x ≠ slot := fun x hx heq => hnew (heq ▸ hx)
  have hfree : ∀ x ∈ s.mem.offloaded, Free s x → Free (s.move loop { s.mem with
      offloaded := insert slot s.mem.offloaded
      waiting := insert slot s.mem.waiting } none) x := by
    intro x hx hxf
    refine hxf.move ?_ nofun
    rw [Finset.mem_insert]
    exact not_or.mpr ⟨hne x hx, hxf.1⟩
  refine ⟨?_, Finset.insert_subset_insert slot h.waiting, ?_, ?_, h.nodup, ?_⟩
  · show (insert slot s.mem.offloaded).card ≤ maxInflight
    rw [Finset.card_insert_of_notMem hnew]
    exact hroom
  · refine Threads.State.forall_move ?_ nofun
    intro u p hu hp x hx
    obtain ⟨hin, hout, honce⟩ := h.held u p hp x hx
    refine ⟨Finset.mem_insert_of_mem hin, ?_, ?_⟩
    · show x ∉ insert slot s.mem.waiting
      rw [Finset.mem_insert]
      exact not_or.mpr ⟨hne x hin, hout⟩
    · exact Threads.State.forall_move (fun v p' _ hv => honce v p' hv) nofun
  · intro v hv
    obtain ⟨x, hx, rfl, hxf⟩ := h.onRing v hv
    exact ⟨x, Finset.mem_insert_of_mem hx, rfl, hfree x hx hxf⟩
  · intro p hp
    rw [s.move_pc_self] at hp
    cases hp

theorem Slots.take {s : State T} (h : Slots loop s) {t : T} {slot : Nat} (htl : t ≠ loop)
    (hslot : slot ∈ s.mem.waiting) :
    Slots loop (s.move t { s.mem with waiting := s.mem.waiting.erase slot }
      (some (.push slot 63 (Ring.Pc.start (.push slot))))) := by
  -- whoever holds a slot, or put it on the ring, has another one
  have hfree : ∀ x, Free s x → Free (s.move t { s.mem with waiting := s.mem.waiting.erase slot }
      (some (.push slot 63 (Ring.Pc.start (.push slot))))) x := by
    intro x hx
    refine hx.move (fun hmem => hx.1 (Finset.mem_of_mem_erase hmem)) ?_
    rintro p ⟨⟩ heq
    obtain rfl : slot = x := Option.some.inj heq
    exact hx.1 hslot
  refine ⟨h.bound, fun x hx => h.waiting (Finset.mem_of_mem_erase hx), ?_, ?_, h.nodup, ?_⟩
  · refine Threads.State.forall_move ?_ ?_
    · intro u p hut hu x hx
      obtain ⟨hin, hout, honce⟩ := h.held u p hu x hx
      refine ⟨hin, fun hmem => hout (Finset.mem_of_mem_erase hmem), ?_⟩
      refine Threads.State.forall_move (fun v p' _ hv => honce v p' hv) ?_
      rintro p' ⟨⟩ heq
      obtain rfl : slot = x := Option.some.inj heq
      exact absurd hslot hout
    · rintro p ⟨⟩ x heq
      obtain rfl : slot = x := Option.some.inj heq
      refine ⟨h.waiting hslot, Finset.notMem_erase _ _, ?_⟩
      refine Threads.State.forall_move ?_ fun _ _ _ => rfl
      intro v p' _ hv hp'
      exact absurd hslot (h.held v p' hv slot hp').2.1
  · intro v hv
    obtain ⟨x, hx, rfl, hxf⟩ := h.onRing v hv
    exact ⟨x, hx, rfl, hfree x hxf⟩
  · intro p hp v hv
    rw [s.move_pc_of_ne _ _ htl.symm] at hp
    obtain ⟨hnot, x, rfl, hxf⟩ := h.finishing p hp v hv
    exact ⟨hnot, x, rfl, hfree x hxf⟩

theorem Slots.claim {s : State T} (h : Slots loop s) {t : T} {slot tries pos : Nat} {d' : Traced}
    (htl : t ≠ loop) (hpc : s.pc t = some (.push slot tries (.pushExchange slot pos)))
    (hqueue : d'.queue = s.mem.onRing ++ [(slot : Int)])
    (hpushed : ∀ pc, s.pc loop = some pc → finishes { s.mem with done := d' } pc = finishes s.mem pc) :
    Slots loop (s.move t { s.mem with done := d' }
      (some (.push slot tries (.pushWrite slot pos)))) := by
  obtain ⟨hin, hout, honce⟩ := h.held t _ hpc slot rfl
  have hfree : ∀ x, Free s x → Free (s.move t { s.mem with done := d' }
      (some (.push slot tries (.pushWrite slot pos)))) x := fun x hx =>
    hx.move hx.1 fun p hp => by cases hp; nofun
  -- the slot is free from now on: its one thread has put it on the ring
  have hslot : Free (s.move t { s.mem with done := d' }
      (some (.push slot tries (.pushWrite slot pos)))) slot := by
    refine ⟨hout, Threads.State.forall_move ?_ fun p hp => by cases hp; nofun⟩
    exact fun u p hut hu heq => hut (honce u p hu heq)
  -- it was nowhere else
  have hother : ∀ x, Free s x → x ≠ slot := by
    rintro x hx rfl
    exact hx.2 t _ hpc rfl
  refine ⟨h.bound, h.waiting, ?_, ?_, ?_, ?_⟩
  · refine Threads.State.forall_move ?_ fun p hp x hx => by cases hp; cases hx
    intro u p hut hu x hx
    obtain ⟨hin', hout', honce'⟩ := h.held u p hu x hx
    exact ⟨hin', hout', Threads.State.forall_move (fun v p' _ hv => honce' v p' hv)
      fun p' hp' heq => by cases hp'; cases heq⟩
  · intro v hv
    rw [show (s.move t { s.mem with done := d' } _).mem.onRing = s.mem.onRing ++ [(slot : Int)]
      from hqueue, List.mem_append] at hv
    rcases hv with hv | hv
    · obtain ⟨x, hx, rfl, hxf⟩ := h.onRing v hv
      exact ⟨x, hx, rfl, hfree x hxf⟩
    · exact ⟨slot, hin, List.mem_singleton.mp hv, hslot⟩
  · show d'.queue.Nodup
    rw [hqueue, List.nodup_append]
    refine ⟨h.nodup, List.nodup_singleton _, ?_⟩
    rintro a ha b hb rfl
    obtain ⟨x, -, rfl, hxf⟩ := h.onRing a ha
    exact hother x hxf (by exact_mod_cast List.mem_singleton.mp hb)
  · intro p hp v hv
    rw [s.move_pc_of_ne _ _ htl.symm] at hp
    have hv' : finishes { s.mem with done := d' } p = some v := hv
    rw [hpushed p hp] at hv'
    obtain ⟨hnot, x, rfl, hxf⟩ := h.finishing p hp v hv'
    refine ⟨fun hmem => ?_, x, rfl, hfree x hxf⟩
    rw [show (s.move t { s.mem with done := d' } _).mem.onRing = s.mem.onRing ++ [(slot : Int)]
      from hqueue, List.mem_append] at hmem
    rcases hmem with hmem | hmem
    · exact hnot hmem
    · exact hother x hxf (by exact_mod_cast List.mem_singleton.mp hmem)

theorem Slots.pop {s : State T} (h : Slots loop s) {pos : Nat} {value : Int} {d' : Traced}
    (hpushed : d'.pushed = s.mem.done.pushed)
    (hvalue : s.mem.done.pushed[pos]? = some value) (hqueue : s.mem.onRing = value :: d'.queue) :
    Slots loop (s.move loop { s.mem with done := d' } (some (.drain (.popRead pos)))) := by
  have hfree : ∀ x, Free s x → Free (s.move loop { s.mem with done := d' }
      (some (.drain (.popRead pos)))) x := fun x hx =>
    hx.move hx.1 fun p hp => by cases hp; nofun
  have hring : ∀ v, v ∈ d'.queue → v ∈ s.mem.onRing := by
    intro v hv
    rw [hqueue]
    exact List.mem_cons_of_mem _ hv
  have hnodup := h.nodup
  rw [hqueue, List.nodup_cons] at hnodup
  refine ⟨h.bound, h.waiting, ?_, ?_, hnodup.2, ?_⟩
  · refine Threads.State.forall_move ?_ fun p hp x hx => by cases hp; cases hx
    intro u p hut hu x hx
    obtain ⟨hin', hout', honce'⟩ := h.held u p hu x hx
    exact ⟨hin', hout', Threads.State.forall_move (fun v p' _ hv => honce' v p' hv)
      fun p' hp' heq => by cases hp'; cases heq⟩
  · intro v hv
    obtain ⟨x, hx, rfl, hxf⟩ := h.onRing v (hring v hv)
    exact ⟨x, hx, rfl, hfree x hxf⟩
  · intro p hp v hv
    rw [s.move_pc_self] at hp
    cases hp
    have hv' : d'.pushed[pos]? = some v := hv
    rw [hpushed, hvalue] at hv'
    obtain rfl := Option.some.inj hv'
    obtain ⟨x, -, rfl, hxf⟩ := h.onRing value (by rw [hqueue]; exact List.mem_cons_self)
    exact ⟨hnodup.1, x, rfl, hfree x hxf⟩

theorem Slots.finish {s : State T} (h : Slots loop s) {out : Int}
    (hpc : s.pc loop = some (.finish out)) :
    Slots loop (s.move loop { s.mem with offloaded := s.mem.offloaded.erase out.toNat } none) := by
  obtain ⟨hnot, x, rfl, hxf⟩ := h.finishing _ hpc out rfl
  rw [Int.toNat_natCast]
  have hfree : ∀ y, Free s y →
      Free (s.move loop { s.mem with offloaded := s.mem.offloaded.erase x } none) y :=
    fun y hy => hy.move hy.1 nofun
  refine ⟨(Finset.card_le_card (Finset.erase_subset _ _)).trans h.bound, ?_, ?_, ?_, h.nodup, ?_⟩
  · intro y hy
    exact Finset.mem_erase.mpr ⟨fun heq => hxf.1 (heq ▸ hy), h.waiting hy⟩
  · refine Threads.State.forall_move ?_ nofun
    intro u p hu hp y hy
    obtain ⟨hin, hout, honce⟩ := h.held u p hp y hy
    refine ⟨Finset.mem_erase.mpr ⟨fun heq => hxf.2 u p hp (heq ▸ hy), hin⟩, hout, ?_⟩
    exact Threads.State.forall_move (fun v p' _ hv => honce v p' hv) nofun
  · intro v hv
    obtain ⟨y, hy, rfl, hyf⟩ := h.onRing v hv
    refine ⟨y, Finset.mem_erase.mpr ⟨?_, hy⟩, rfl, hfree y hyf⟩
    rintro rfl
    exact hnot hv
  · intro p hp
    rw [s.move_pc_self] at hp
    cases hp

/-- A call that has claimed nothing returns from an access that has not either. -/
theorem unclaimed_of_retry {m : Traced} {p : Ring.Pc} {res : Ring.Res}
    (h : ((Ring.program doneSize).advance m p).2 = .ret res) (hop : ∃ value, p.op = .push value)
    (hres : res ≠ .pushed true) : p.claimed = none := by
  have hpoint := Ring.advance_ret (Prod.ext rfl h)
  cases hclaim : p.claimed with
  | none => rfl
  | some pos =>
    obtain ⟨value, hop⟩ := hop
    rcases hpoint.claimed hclaim with ⟨_, rfl, -⟩ | ⟨out, -, rfl⟩
    · exact absurd rfl hres
    · cases hop

omit [DecidableEq T] in
/-- What the loop has popped is where it was pushed, whatever an access does to the ring. -/
theorem finishes_of_access {s : State T} (h : Sound loop s) {t : T} {pc : Pc} (hpc : s.pc t = some pc)
    {p : Ring.Pc} (hacc : pc.access = some p) {u : T} {q : Pc} (hq : s.pc u = some q) :
    finishes { s.mem with done := ((Ring.program doneSize).advance s.mem.done p).1 } q =
      finishes s.mem q := by
  have hview : ∀ {v : T} {q : Pc} {p : Ring.Pc}, s.pc v = some q → q.access = some p →
      (hosted.view s).pc v = some p := by
    intro v q p hv hp
    rw [Ring.Hosted.view_pc, hv]
    exact hp
  obtain ⟨rest, hrest⟩ : s.mem.done.pushed <+: ((Ring.program doneSize).advance s.mem.done p).1.pushed :=
    ((Ring.effect_advance doneSize s.mem.done p).mono (h.ring.points t p (hview hpc hacc))).2
  cases q with
  | drain q =>
    show (q.claimed.bind fun pos => ((Ring.program doneSize).advance s.mem.done p).1.pushed[pos]?) =
      q.claimed.bind fun pos => s.mem.done.pushed[pos]?
    cases hclaim : q.claimed with
    | none => rfl
    | some pos =>
      have hlt : pos < s.mem.done.pushed.length := by
        rcases (h.ring.points u q (hview hq rfl)).claimed hclaim with ⟨_, hw⟩ | ⟨_, hw⟩
        · exact (List.getElem?_eq_some_iff.mp hw.value).1
        · exact (List.getElem?_eq_some_iff.mp hw.value).1
      rw [Option.bind_some, Option.bind_some, ← hrest, List.getElem?_append_left hlt]
  | _ => rfl

/-- **Each step keeps each slot at one place.** -/
theorem Slots.step {s : State T} (hslots : Slots loop s) (h : Sound loop s) {t : T} {pc : Pc}
    {m' : Mem} {nx : Next Pc Unit} (hpc : s.pc t = some pc) (hadv : advance s.mem pc = (m', nx)) :
    Slots loop (s.move t m' nx.point) := by
  have hfits := h.fits t pc hpc
  have hrole := h.role t pc hpc
  have hafter := (hosted.inv_advance h.ring hpc hadv).fifo.order.length_le
  have hfifo := h.ring.fifo
  have hle := hfifo.order.length_le
  obtain rfl : (advance s.mem pc).1 = m' := congrArg Prod.fst hadv
  obtain rfl : (advance s.mem pc).2 = nx := congrArg Prod.snd hadv
  clear hadv
  -- what one access of the ring does to the queue
  have hqueue := fun p =>
    Ring.queue_of_effect (Ring.effect_advance doneSize s.mem.done p) hfifo.popped_length hle
  cases pc with
  | take slot =>
    have htl : t ≠ loop := fun heq => Bool.noConfusion (hrole.mpr heq)
    by_cases hslot : slot ∈ s.mem.waiting
    · simp only [advance, if_pos hslot]
      exact hslots.take htl hslot
    · simp only [advance, if_neg hslot]
      exact hslots.keep rfl rfl rfl (by rintro p x ⟨⟩ ⟨⟩) (by rintro p v - ⟨⟩ ⟨⟩) fun _ _ _ => rfl
  | flag =>
    have htl : t ≠ loop := fun heq => Bool.noConfusion (hrole.mpr heq)
    refine hslots.keep rfl rfl rfl ?_ (fun _ _ heq => absurd heq htl) fun _ _ _ => rfl
    intro p x hp hx
    simp only [advance] at hp
    split at hp <;> cases hp
    cases hx
  | poke => exact hslots.keep rfl rfl rfl (by rintro p x ⟨⟩ ⟨⟩) (by rintro p v - ⟨⟩ ⟨⟩) fun _ _ _ => rfl
  | submit slot =>
    obtain rfl : t = loop := hrole.mp rfl
    by_cases hroom : s.mem.offloaded.card < maxInflight ∧ slot ∉ s.mem.offloaded
    · simp only [advance, if_pos hroom]
      exact hslots.submit hroom.1 hroom.2
    · simp only [advance, if_neg hroom]
      exact hslots.keep rfl rfl rfl (by rintro p x ⟨⟩ ⟨⟩) (by rintro p v - ⟨⟩ ⟨⟩) fun _ _ _ => rfl
  | raise | blocked =>
    refine hslots.keep rfl rfl rfl ?_ ?_ fun _ _ _ => rfl
    · rintro p x ⟨⟩ ⟨⟩
    · rintro p v - ⟨⟩ ⟨⟩
  | lower | recv => exact hslots.keep rfl rfl rfl (by rintro p x ⟨⟩ ⟨⟩) (by rintro p v - ⟨⟩ ⟨⟩) fun _ _ _ => rfl
  | finish out =>
    obtain rfl : t = loop := hrole.mp rfl
    exact hslots.finish hpc
  | push slot tries p =>
    have htl : t ≠ loop := fun heq => Bool.noConfusion (hrole.mpr heq)
    have hop : p.op = .push slot := hfits
    rcases hqueue p hafter with ⟨-, hsame, hclaimed⟩ | ⟨value, pos, rfl, hnext, hgrown⟩ |
      ⟨pos, value, rfl, -⟩
    · refine hslots.keep rfl rfl hsame ?_ (fun _ _ heq => absurd heq htl)
        fun q _ hq => finishes_of_access h hpc rfl hq
      intro q x hq hx
      refine ⟨_, hpc, ?_⟩
      show (if p.claimed = none then some slot else none) = some x
      simp only [advance, access] at hq
      cases hres : ((Ring.program doneSize).advance s.mem.done p).2 with
      | goto p' =>
        rw [hres] at hq
        cases hq
        rw [← hclaimed p' (by rw [hres]; rfl)]
        exact hx
      | ret res =>
        rw [hres] at hq
        have hne : res ≠ .pushed true := by
          rintro rfl
          cases hq
          cases hx
        have hretry : (pushBehind slot tries (.ret (.pushed false))).point = some q := by
          cases res with
          | pushed ok =>
            cases ok with
            | true => exact absurd rfl hne
            | false => exact hq
          | _ => exact hq
        rw [if_pos (unclaimed_of_retry hres ⟨_, hop⟩ hne)]
        cases tries with
        | zero =>
          cases hretry
          cases hx
        | succ tries =>
          cases hretry
          exact hx
    · obtain rfl : value = slot := by cases hop; rfl
      have hgoto : ((Ring.program doneSize).advance s.mem.done (.pushExchange slot pos)).2 =
          .goto (.pushWrite slot pos) := by
        cases hres : ((Ring.program doneSize).advance s.mem.done (.pushExchange slot pos)).2 with
        | goto q =>
          rw [hres] at hnext
          cases hnext
          rfl
        | ret res =>
          rw [hres] at hnext
          cases hnext
      simp only [advance, access, hgoto]
      exact hslots.claim htl hpc hgrown fun q hq => finishes_of_access h hpc rfl hq
    · cases hop
  | check p =>
    have hop : p.op = .isEmpty := hfits
    rcases hqueue p hafter with ⟨-, hsame, -⟩ | ⟨value, pos, rfl, -⟩ | ⟨pos, value, rfl, -⟩
    · have hpoint : ∀ q, (advance s.mem (.check p)).2.point = some q →
          q.holds = none ∧ ∀ m, finishes m q = none := by
        intro q hq
        simp only [advance, access] at hq
        generalize ((Ring.program doneSize).advance s.mem.done p).2 = nx at hq
        unfold checkBehind at hq
        repeat' split at hq
        all_goals cases hq
        all_goals exact ⟨rfl, fun _ => rfl⟩
      refine hslots.keep rfl rfl hsame ?_ ?_ fun q _ hq => finishes_of_access h hpc rfl hq
      · intro q x hq hx
        rw [(hpoint q hq).1] at hx
        cases hx
      · intro q v _ hq hv
        rw [(hpoint q hq).2] at hv
        cases hv
    · cases hop
    · cases hop
  | drain p =>
    obtain rfl : t = loop := hrole.mp rfl
    have hop : p.op = .pop := hfits
    rcases hqueue p hafter with ⟨hpushed, hsame, hclaimed⟩ | ⟨value, pos, rfl, -⟩ |
      ⟨pos, value, rfl, hnext, hpushed, hvalue, hshrunk⟩
    · refine hslots.keep rfl rfl hsame ?_ ?_ fun q hne => absurd rfl hne
      · intro q x hq hx
        simp only [advance, access] at hq
        generalize ((Ring.program doneSize).advance s.mem.done p).2 = nx at hq
        unfold drainBehind at hq
        repeat' split at hq
        all_goals cases hq
        all_goals cases hx
      · intro q v _ hq hv
        refine ⟨_, hpc, ?_⟩
        simp only [advance, access] at hq
        cases hres : ((Ring.program doneSize).advance s.mem.done p).2 with
        | goto p' =>
          rw [hres] at hq
          cases hq
          show (p.claimed.bind fun pos => s.mem.done.pushed[pos]?) = some v
          rw [← hclaimed p' (by rw [hres]; rfl), ← hpushed]
          exact hv
        | ret res =>
          rw [hres] at hq
          -- the value it read is the one pushed at its position
          obtain ⟨out, rfl⟩ : ∃ out, res = .popped (some out) := by
            cases res with
            | popped out =>
              cases out with
              | some out => exact ⟨out, rfl⟩
              | none => cases hq
            | _ => cases hq
          cases hq
          obtain rfl : out = v := Option.some.inj hv
          obtain ⟨pos, rfl⟩ := Ring.advance_ret (Prod.ext rfl hres)
          have hok : Ring.Taking doneSize s.mem.done pos out :=
            h.ring.points t (.popRelease pos out) (by rw [Ring.Hosted.view_pc, hpc]; rfl)
          exact hok.value
    · cases hop
    · have hgoto : ((Ring.program doneSize).advance s.mem.done (.popExchange pos)).2 =
          .goto (.popRead pos) := by
        cases hres : ((Ring.program doneSize).advance s.mem.done (.popExchange pos)).2 with
        | goto q =>
          rw [hres] at hnext
          cases hnext
          rfl
        | ret res =>
          rw [hres] at hnext
          cases hnext
      simp only [advance, access, hgoto]
      exact hslots.pop hpushed hvalue hshrunk

/-! ## Executions -/

omit [DecidableEq T] in
theorem slots_init (loop : T) : Slots loop (⟨Mem.init, fun _ => none⟩ : State T) where
  bound := Nat.zero_le _
  waiting := Finset.Subset.refl _
  held := fun _ _ h => nomatch h
  onRing := fun _ h => nomatch h
  nodup := List.nodup_nil
  finishing := fun _ h => nomatch h

theorem Slots.call {s : State T} (h : Slots loop s) {t : T} (op : Op) :
    Slots loop (s.move t s.mem (some (Pc.start op))) := by
  refine h.keep rfl rfl rfl ?_ ?_ fun _ _ _ => rfl
  · rintro p x ⟨⟩ hx
    cases op <;> cases hx
  · rintro p v - ⟨⟩ hv
    cases op <;> cases hv

/-- The threads `T`, one of which is the loop. -/
abbrev Execution (loop : T) := (program.systemOf (may loop) Mem.init).Execution

/-- **What holds at every instant.** -/
theorem sound_of_execution (e : Execution loop) :
    ∀ k ≤ e.labels.length, Sound loop (e.state k) ∧ Slots loop (e.state k) := by
  refine Program.invariant_of_roles (I := fun s => Sound loop s ∧ Slots loop s)
    ⟨sound_init loop, slots_init loop⟩ ?_ ?_ e
  · exact fun s t op h hidle hmay => ⟨h.1.call hidle hmay, h.2.call op⟩
  · exact fun s t pc m' nx h hpc hadv => ⟨h.1.step hpc hadv, h.2.step h.1 hpc hadv⟩

/-! ## No completion is forgotten -/

/-- A poke is in the channel, or a thread that has read the flag up is sending one. -/
def PokeInFlight (s : State T) : Prop := 0 < s.mem.pokes ∨ ∃ t, s.pc t = some .poke

/-- The thread has claimed the cell of its completion and has not read the flag yet. -/
def Pc.completing : Pc → Bool
  | .push _ _ p => p.claimed.isSome
  | .flag => true
  | _ => false

omit [DecidableEq T] in
theorem Sound.published {s : State T} (h : Sound loop s) (hblocked : s.pc loop = some .blocked)
    (hpub : Published s.mem) : PokeInFlight s ∨ ∃ t, s.pc t = some .flag := by
  rcases h.woken hblocked hpub with hpokes | ⟨t, ht | ht⟩
  · exact Or.inl (Or.inl hpokes)
  · exact Or.inr ⟨t, ht⟩
  · exact Or.inl (Or.inr ⟨t, ht⟩)

omit [DecidableEq T] in
/-- **A completion on the ring of a blocked loop**: a poke is in flight, or the thread of the
completion at the head has not read the flag yet. -/
theorem Sound.on_ring {s : State T} (h : Sound loop s) (hblocked : s.pc loop = some .blocked)
    (hring : s.mem.onRing ≠ []) :
    PokeInFlight s ∨ ∃ t pc, s.pc t = some pc ∧ pc.completing = true := by
  have hfifo := h.ring.fifo
  obtain ⟨value, rest, hqueue⟩ := List.exists_cons_of_ne_nil hring
  have hvalue : s.mem.done.pushed[s.mem.done.ring.head]? = some value := by
    have hhead : s.mem.done.queue[0]? = some value := by
      rw [show s.mem.done.queue = value :: rest from hqueue]
      rfl
    rw [← show s.mem.done.popped.length = s.mem.done.ring.head from hfifo.popped_length]
    rw [Ring.Traced.queue, List.getElem?_drop] at hhead
    exact hhead
  rcases hfifo.kept _ value hfifo.popped_length.le hvalue with hholds | ⟨t, ht⟩
  · rcases h.published hblocked hholds.1 with hpoke | ⟨t, ht⟩
    · exact Or.inl hpoke
    · exact Or.inr ⟨t, _, ht, rfl⟩
  · -- the push of the value at the head is not done
    obtain ⟨p, hp, hclaim, hop⟩ : ∃ p, (hosted.view s).pc t = some p ∧ p.claimed.isSome = true ∧
        ∃ v, p.op = .push v := by
      rcases ht with ht | ht <;> exact ⟨_, ht, rfl, _, rfl⟩
    rw [Ring.Hosted.view_pc] at hp
    cases hpc : s.pc t with
    | none =>
      rw [hpc] at hp
      cases hp
    | some pc =>
      rw [hpc] at hp
      have hfits := h.fits t pc hpc
      refine Or.inr ⟨t, pc, hpc, ?_⟩
      have hacc : pc.access = some p := hp
      obtain ⟨v, hop⟩ := hop
      cases pc with
      | push slot tries q =>
        cases hacc
        exact hclaim
      | check q =>
        cases hacc
        rw [show p.op = .isEmpty from hfits] at hop
        cases hop
      | drain q =>
        cases hacc
        rw [show p.op = .pop from hfits] at hop
        cases hop
      | _ => cases hacc

omit [DecidableEq T] in
/-- **A completion's push never finds the ring full.** -/
theorem Sound.never_full {s : State T} (h : Sound loop s) (hslots : Slots loop s) {t : T}
    {slot tries : Nat} {p : Ring.Pc} (hpc : s.pc t = some (.push slot tries p)) :
    ((Ring.program doneSize).advance s.mem.done p).2 ≠ .ret (.pushed false) := by
  intro hfull
  obtain ⟨value, pos, rfl, hseq⟩ := Ring.advance_ret (Prod.ext rfl hfull)
  have hfifo := h.ring.fifo
  have htail : pos ≤ s.mem.done.ring.tail := h.tail t _ hpc _ rfl pos rfl
  have hcapacity : (maxInflight * 2 : Int) ≤ doneSize.capacity := Ring.Size.le_capacity_ofCapacity _
  have hlength : s.mem.done.pushed.length - s.mem.done.popped.length ≤ maxInflight := by
    have hle := hslots.length_le
    rwa [Mem.onRing, Ring.Traced.queue, List.length_drop] at hle
  have hpushed : s.mem.done.pushed.length = s.mem.done.ring.tail := hfifo.pushed_length
  have hpopped : s.mem.done.popped.length = s.mem.done.ring.head := hfifo.popped_length
  have hmax : maxInflight = 256 := rfl
  have hroom := h.ring.room htail
    (show s.mem.done.ring.tail + 1 < s.mem.done.ring.head + doneSize.capacity by omega) ?_
  · exact absurd hseq (Nat.not_lt.mpr hroom)
  · -- only the loop pops
    intro u q n hu hpopping
    rw [Ring.Hosted.view_pc] at hu
    cases hpcu : s.pc u with
    | none =>
      rw [hpcu] at hu
      cases hu
    | some pc =>
      rw [hpcu] at hu
      have hacc : pc.access = some q := hu
      have hfits := h.fits u pc hpcu
      have hbyLoop : pc.byLoop = true := by
        cases pc with
        | push slot tries q' =>
          cases hacc
          have hop : q.op = .push slot := hfits
          cases q <;> cases hpopping <;> cases hop
        | check | drain => rfl
        | _ => cases hacc
      have hknows := h.head u pc hpcu hbyLoop q hacc
      have hat : q.atHead = some (n + 1) := by
        cases q <;> cases hpopping <;> rfl
      exact (hknows (n + 1) hat).le

/-- **No completion is forgotten.** For any number of pool threads and any interleaving of their
accesses with the loop's: while the loop is blocked with a completion in the head cell of the ring,
a poke is in flight or a thread is between its push and its read of the flag; and while it is
blocked with any completion on the ring, a poke is in flight or a thread that has claimed its cell
has not read the flag yet. With as many jobs out as the loop lets out, no push of a completion
finds the ring full. -/
theorem loop_not_forgotten (loop : T) (e : Execution loop) (k : Nat) (hk : k ≤ e.labels.length) :
    ((e.state k).pc loop = some .blocked → Published (e.state k).mem →
      PokeInFlight (e.state k) ∨ ∃ t, (e.state k).pc t = some .flag) ∧
    ((e.state k).pc loop = some .blocked → (e.state k).mem.onRing ≠ [] →
      PokeInFlight (e.state k) ∨ ∃ t pc, (e.state k).pc t = some pc ∧ pc.completing = true) ∧
    ∀ t slot tries p, (e.state k).pc t = some (.push slot tries p) →
      ((Ring.program doneSize).advance (e.state k).mem.done p).2 ≠ .ret (.pushed false) := by
  obtain ⟨hsound, hslots⟩ := sound_of_execution e k hk
  exact ⟨hsound.published, hsound.on_ring, fun t slot tries p hpc => hsound.never_full hslots hpc⟩

/-- The loop, thread 0, submits slot 5 and blocks; thread 1 runs it and pushes its completion. -/
def pushedWhileBlocked : List (Threads.Label Nat Op Unit) :=
  [⟨0, .call (.submit 5)⟩, ⟨0, .ret ()⟩, ⟨1, .call (.run 5)⟩, ⟨1, .go⟩,
    ⟨0, .call .wait⟩, ⟨0, .go⟩, ⟨0, .go⟩, ⟨0, .go⟩,
    ⟨1, .go⟩, ⟨1, .go⟩, ⟨1, .go⟩, ⟨1, .go⟩, ⟨1, .go⟩]

theorem pushedWhileBlocked_runs :
    ((program.systemOf (may 0) Mem.init).run (program.systemOf (may 0) Mem.init).init
      pushedWhileBlocked).isSome := by
  decide

/-- There the poke is in flight, or the thread has the flag still to read. -/
theorem pushedWhileBlocked_not_forgotten :
    PokeInFlight ((LabelledSystem.Execution.ofRun _ pushedWhileBlocked pushedWhileBlocked_runs).state 13) ∨
      ∃ t, ((LabelledSystem.Execution.ofRun _ pushedWhileBlocked pushedWhileBlocked_runs).state 13).pc t =
        some .flag :=
  (loop_not_forgotten 0 (.ofRun _ pushedWhileBlocked pushedWhileBlocked_runs) 13 (by decide)).1 rfl
    (by unfold Published; decide)

end LoopWait

end Offload

end MojoHttp
