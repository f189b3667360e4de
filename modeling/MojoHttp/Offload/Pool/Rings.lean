import MojoHttp.Offload.Pool

/-!
# The job rings of a pool

Every lane of a pool has a ring, which its threads pop from and the loop pushes to and looks at
among their other steps.

* **`quiet_advance`** — a step that accesses no ring.
* **`access_advance`** — a step that accesses one: it is one of the ring's, and the program goes on
  with its call or is done with it.
* **`hosted`** — so the ring of a lane is accessed by the ring's calls only.
-/

namespace MojoHttp

namespace Offload

open MojoHttp.Ring (Traced)
open Threads (Next Program)

namespace Pool

/-! ## The rings among it -/

/-- The job rings of the lanes. -/
def Mem.rings (m : Mem) (lane : Nat) : Traced := (m.lanes lane).ring

/-- The lane whose ring a point is about to access, and how, if it is. -/
def Pc.target (c : Setup) : Pc → Option (Nat × Ring.Pc)
  | .thread i (.pop _ _ pc) => some (c.lane i, pc)
  | .thread i (.chain _ pc) => some (c.lane i, pc)
  | .thread i (.recheck pc) => some (c.lane i, pc)
  | .thread i (.sockPop pc) => some (c.lane i, pc)
  | .push lane pc => some (lane, pc)
  | .pops lane _ pc => some (lane, pc)
  | .peek lane _ _ pc => some (lane, pc)
  | _ => none

@[simp] theorem rings_setLane {m : Mem} {lane : Nat} {f : Lane → Lane} (hf : ∀ l, (f l).ring = l.ring) :
    (m.setLane lane f).rings = m.rings := by
  funext lane'
  show (Function.update m.lanes lane (f (m.lanes lane)) lane').ring = (m.lanes lane').ring
  rcases eq_or_ne lane' lane with rfl | hne
  · rw [Function.update_self, hf]
  · rw [Function.update_of_ne hne]

@[simp] theorem rings_setRec (m : Mem) (t : Nat) (f : Rec → Rec) : (m.setRec t f).rings = m.rings := rfl

@[simp] theorem rings_setLife (m : Mem) (i : Nat) (life : Life) :
    (m.setLife i life).rings = m.rings := rfl

@[simp] theorem rings_give (m : Mem) (i : Nat) (job : Job) : (m.give i job).rings = m.rings := by
  cases job <;> rfl

/-- The call of a ring that a point is in the middle of. -/
def Pc.fits : Pc → Ring.Op → Bool
  | .thread _ (.pop _ _ _) => fun op => (op matches .pop)
  | .thread _ (.chain _ _) => fun op => (op matches .isEmpty)
  | .thread _ (.recheck _) => fun op => (op matches .pop)
  | .thread _ (.sockPop _) => fun op => (op matches .pop)
  | .push _ _ => fun op => (op matches .push _)
  | .pops _ _ _ => fun op => (op matches .pops)
  | .peek _ _ _ _ => fun op => (op matches .peek)
  | _ => fun _ => false

theorem Pc.op_of_fits_recheck {i : Nat} {p : Ring.Pc} {op : Ring.Op}
    (h : (Pc.thread i (.recheck p)).fits op = true) : op = .pop := by
  cases op with
  | pop => rfl
  | _ => cases h

theorem Pc.op_of_fits_sockPop {i : Nat} {p : Ring.Pc} {op : Ring.Op}
    (h : (Pc.thread i (.sockPop p)).fits op = true) : op = .pop := by
  cases op with
  | pop => rfl
  | _ => cases h

/-- Behind a step its thread is in no access to a ring, or at the start of one that fits. -/
def Begins (c : Setup) (nx : Next Pc Res) : Prop :=
  ∀ pc a, nx.point = some pc → pc.target c = some a →
    ∃ op, a.2 = Ring.Pc.start op ∧ pc.fits op = true

section

variable {c : Setup}

theorem begins_ret {res : Res} : Begins c (.ret res) := fun _ _ h => nomatch h

theorem begins_goto {pc : Pc} (h : pc.target c = none) : Begins c (.goto pc) := by
  intro pc' a hpc ha
  obtain rfl := Option.some.inj hpc
  rw [h] at ha
  cases ha

theorem begins_start {pc : Pc} {lane : Nat} {op : Ring.Op}
    (h : pc.target c = some (lane, Ring.Pc.start op)) (hfits : pc.fits op = true) :
    Begins c (.goto pc) := by
  intro pc' a hpc ha
  obtain rfl := Option.some.inj hpc
  rw [h] at ha
  cases ha
  exact ⟨op, rfl, hfits⟩

theorem begins_agedNext {lane : Nat} {stalled : Nat → Nat → Int → Bool} :
    Begins c (agedNext c lane stalled) := by
  unfold agedNext
  split
  · exact begins_start rfl rfl
  · exact begins_ret

theorem begins_afterWake {after : After} : Begins c (afterWake c after) := by
  cases after with
  | aged lane stalled => exact begins_agedNext
  | _ => exact begins_ret

theorem begins_noneRegistered {lane : Nat} {after : After} :
    Begins c (noneRegistered lane after) := by
  cases after with
  | sent => exact begins_ret
  | _ => exact begins_goto rfl

theorem begins_scan {lane : Nat} {after : After} {t : Nat} {best : Option (Nat × Nat)} :
    Begins c (scan c lane after t best) := by
  unfold scan
  split
  · exact begins_goto rfl
  · split
    · exact begins_goto rfl
    · exact begins_noneRegistered

theorem begins_wakeOne {lane : Nat} {after : After} : Begins c (wakeOne c lane after) := begins_scan

theorem begins_hand {i : Nat} {job : Job} {fromRing : Bool} : Begins c (hand c i job fromRing) := by
  unfold hand
  split
  · exact begins_start rfl rfl
  · exact begins_ret

theorem begins_found {m : Mem} {i : Nat} {look : Look} {job : Job} {fromRing : Bool} :
    Begins c (found c m i look job fromRing).2 := by
  unfold found
  split
  · exact begins_goto rfl
  · exact begins_hand

theorem begins_park {i : Nat} : Begins c (.goto (.thread i (park c i))) := by
  unfold park
  split <;> exact begins_goto rfl

theorem begins_nothing {i : Nat} {look : Look} {now : Int} : Begins c (nothing c i look now) := by
  unfold nothing
  split
  · exact begins_ret
  · split
    · split <;> exact begins_goto rfl
    · split
      · split
        · exact begins_goto rfl
        · exact begins_park
      · exact begins_goto rfl

theorem begins_unparked {m : Mem} {i : Nat} {got : Own} : Begins c (unparked m i got).2 := by
  cases got with
  | pill => exact begins_ret
  | poke => exact begins_goto rfl

theorem begins_stopNext {rest : List Nat} : Begins c (stopNext rest) := by
  cases rest with
  | nil => exact begins_ret
  | cons lane rest => exact begins_goto rfl

theorem begins_putNext {m : Mem} {lane : Nat} {rest : List Nat} {left : Nat} :
    Begins c (putNext m lane rest left).2 := by
  cases left with
  | zero => exact begins_stopNext
  | succ left => exact begins_goto rfl

theorem begins_stopScan {m : Mem} {lane : Nat} {rest : List Nat} {t pilled : Nat} :
    Begins c (stopScan c m lane rest t pilled).2 := by
  unfold stopScan
  split
  · exact begins_goto rfl
  · exact begins_putNext

end

@[simp] theorem rings_found {c : Setup} {m : Mem} {i : Nat} {look : Look} {job : Job} {fromRing : Bool} :
    (found c m i look job fromRing).1.rings = m.rings := by
  unfold found
  split
  · rfl
  · exact rings_give m i job

@[simp] theorem rings_unparked {m : Mem} {i : Nat} {got : Own} : (unparked m i got).1.rings = m.rings := by
  cases got <;> rfl

@[simp] theorem rings_putNext {m : Mem} {lane : Nat} {rest : List Nat} {left : Nat} :
    (putNext m lane rest left).1.rings = m.rings := by
  cases left <;> rfl

@[simp] theorem rings_stopScan {c : Setup} {m : Mem} {lane : Nat} {rest : List Nat} {t pilled : Nat} :
    (stopScan c m lane rest t pilled).1.rings = m.rings := by
  unfold stopScan
  split
  · rfl
  · exact rings_putNext

/-- A step that accesses no ring. -/
structure Quiet (c : Setup) (m : Mem) (r : Mem × Next Pc Res) : Prop where
  rings : r.1.rings = m.rings
  begins : Begins c r.2

theorem quiet_wake (c : Setup) (m : Mem) (lane : Nat) (after : After) (w : Wake) :
    Quiet c m (wakeStep c m lane after w) := by
  cases w with
  | lane t best =>
    refine ⟨rfl, ?_⟩
    simp only [wakeStep]
    split
    · exact begins_goto rfl
    · exact begins_scan
  | state t best =>
    refine ⟨rfl, ?_⟩
    simp only [wakeStep]
    split
    · exact begins_goto rfl
    · exact begins_scan
  | seq t best => exact ⟨rfl, begins_scan⟩
  | claim t =>
    simp only [wakeStep]
    split
    · exact ⟨rfl, begins_goto rfl⟩
    · exact ⟨rfl, begins_noneRegistered⟩
  | uncount t => exact ⟨by simp [wakeStep], begins_goto rfl⟩
  | poke t => exact ⟨rfl, begins_afterWake⟩
  | parked => exact ⟨rfl, begins_goto rfl⟩
  | wakes parked =>
    refine ⟨rfl, ?_⟩
    simp only [wakeStep]
    split
    · exact begins_goto rfl
    · exact begins_afterWake
  | count => exact ⟨by simp [wakeStep], begins_goto rfl⟩
  | pokeSocket =>
    simp only [wakeStep]
    split
    · exact ⟨by simp, begins_afterWake⟩
    · exact ⟨rfl, begins_afterWake⟩

theorem quiet_thread (c : Setup) (m : Mem) (i : Nat) (step : Step)
    (h : (Pc.thread i step).target c = none) : Quiet c m (threadStep c m i step) := by
  cases step with
  | pop look now pc => cases h
  | chain job pc => cases h
  | recheck pc => cases h
  | sockPop pc => cases h
  | enter look =>
    refine ⟨rfl, ?_⟩
    simp only [threadStep]
    split
    · exact begins_goto rfl
    · exact begins_ret
  | pill look =>
    simp only [threadStep]
    split
    · exact ⟨rings_give m i .stop, begins_ret⟩
    · exact ⟨rfl, begins_goto rfl⟩
  | clock look => exact ⟨rfl, begins_goto rfl⟩
  | pollLoad look now =>
    refine ⟨rfl, ?_⟩
    simp only [threadStep]
    split
    · exact begins_goto rfl
    · exact begins_start rfl rfl
  | pollStore look now =>
    refine ⟨by simp [threadStep], ?_⟩
    simp only [threadStep]
    split <;> exact begins_goto rfl
  | pollOwn look now =>
    simp only [threadStep]
    split
    · exact ⟨rfl, begins_goto rfl⟩
    · exact ⟨rfl, begins_goto rfl⟩
    · exact ⟨rings_found, begins_found⟩
  | pollSocket look now =>
    simp only [threadStep]
    split
    · exact ⟨rfl, begins_start rfl rfl⟩
    · exact ⟨by simp, begins_goto rfl⟩
    · exact ⟨by simp, begins_found⟩
    · exact ⟨by simp, begins_found⟩
  | pollPoke look now => exact ⟨by simp [threadStep], begins_start rfl rfl⟩
  | spinUp now spinning =>
    refine ⟨by simp [threadStep], ?_⟩
    simp only [threadStep]
    split <;> exact begins_goto rfl
  | spinBack spinning =>
    cases spinning with
    | true => exact ⟨by simp [threadStep], begins_goto rfl⟩
    | false => exact ⟨by simp [threadStep], begins_park⟩
  | spinDown found =>
    cases found with
    | none => exact ⟨by simp [threadStep], begins_park⟩
    | some job =>
      exact ⟨by simp [threadStep], begins_hand⟩
  | seqAdd => exact ⟨rfl, begins_goto rfl⟩
  | seqStore seq => exact ⟨rfl, begins_goto rfl⟩
  | announce => exact ⟨rfl, begins_goto rfl⟩
  | count => exact ⟨by simp [threadStep], begins_start rfl rfl⟩
  | recheckSocket =>
    simp only [threadStep]
    split
    · exact ⟨rfl, begins_goto rfl⟩
    all_goals exact ⟨by simp, begins_goto rfl⟩
  | recheckPoke => exact ⟨by simp [threadStep], begins_goto rfl⟩
  | block =>
    simp only [threadStep]
    split <;> exact ⟨rfl, begins_goto rfl⟩
  | unpark got =>
    simp only [threadStep]
    split <;> exact ⟨rfl, begins_goto rfl⟩
  | unparkCount got => exact ⟨by simp [threadStep], begins_unparked⟩
  | unparkStore got => exact ⟨rings_unparked, begins_unparked⟩
  | pollReset => exact ⟨by simp [threadStep], begins_goto rfl⟩
  | leave job =>
    simp only [threadStep]
    split <;> exact ⟨rfl, begins_goto rfl⟩
  | leaveCount job => exact ⟨by simp [threadStep], begins_ret⟩
  | leaveRecv job =>
    simp only [threadStep]
    split <;> exact ⟨rfl, begins_goto rfl⟩
  | leavePill job => exact ⟨rfl, begins_goto rfl⟩
  | leaveStore job => exact ⟨rings_give _ _ _, begins_ret⟩
  | sockCount => exact ⟨by simp [threadStep], begins_start rfl rfl⟩
  | sockRecv =>
    simp only [threadStep]
    split
    · exact ⟨rfl, begins_goto rfl⟩
    all_goals exact ⟨by simp, begins_goto rfl⟩
  | sockPoke => exact ⟨by simp [threadStep], begins_goto rfl⟩
  | sockUncount found fromRing =>
    cases found with
    | none => exact ⟨by simp [threadStep], begins_goto rfl⟩
    | some job => exact ⟨by simp [threadStep], begins_hand⟩
  | unregister =>
    simp only [threadStep]
    split
    · exact ⟨rfl, begins_ret⟩
    · exact ⟨by simp, begins_goto rfl⟩
  | retire =>
    refine ⟨?_, begins_ret⟩
    simp only [threadStep]
    split <;> rfl

/-- **A step at a point that accesses no ring.** -/
theorem quiet_advance (c : Setup) (m : Mem) (pc : Pc) (h : pc.target c = none) :
    Quiet c m (advance c m pc) := by
  cases pc with
  | thread i step => exact quiet_thread c m i step h
  | wake lane after w => exact quiet_wake c m lane after w
  | push lane pc => cases h
  | pops lane stalled pc => cases h
  | peek lane stalled pops pc => cases h
  | spinners lane =>
    refine ⟨rfl, ?_⟩
    simp only [advance]
    split
    · exact begins_ret
    · exact begins_goto rfl
  | parked lane => exact ⟨rfl, begins_goto rfl⟩
  | parkedReg lane parked => exact ⟨rfl, begins_goto rfl⟩
  | threads lane parked =>
    refine ⟨rfl, ?_⟩
    simp only [advance]
    split
    · exact begins_scan
    · exact begins_ret
  | aged stalled =>
    refine ⟨rfl, ?_⟩
    simp only [advance]
    split
    · exact begins_agedNext
    · exact begins_ret
  | send lane slot =>
    simp only [advance]
    split
    · exact ⟨by simp, begins_wakeOne⟩
    · exact ⟨rfl, begins_ret⟩
  | stopping rest => exact ⟨rfl, begins_stopNext⟩
  | stop st =>
    cases st with
    | scan lane rest t pilled =>
      simp only [advance, stopStep]
      split
      · exact ⟨rfl, begins_goto rfl⟩
      · exact ⟨rings_stopScan, begins_stopScan⟩
    | pill lane rest t pilled => exact ⟨rings_stopScan, begins_stopScan⟩
    | put lane rest left =>
      simp only [advance, stopStep]
      split
      · exact ⟨by simp, begins_putNext⟩
      · exact ⟨rfl, begins_goto rfl⟩
  | tick ns => exact ⟨rfl, begins_ret⟩

/-- Behind an access to a lane's ring a thread goes on with it, or is at a new start. -/
structure Behind (c : Setup) (lane : Nat) (fits : Ring.Op → Bool)
    (behind : Next Ring.Pc Ring.Res → Next Pc Res) : Prop where
  goto : ∀ p, ∃ pc, behind (.goto p) = .goto pc ∧ pc.target c = some (lane, p) ∧ pc.fits = fits
  ret : ∀ res, Begins c (behind (.ret res))

/-- **A step at a point that accesses a ring.** -/
theorem access_advance (c : Setup) (m : Mem) (pc : Pc) {lane : Nat} {p : Ring.Pc}
    (h : pc.target c = some (lane, p)) :
    ∃ behind, Behind c lane pc.fits behind ∧ advance c m pc = m.access lane p behind := by
  cases pc with
  | thread i step =>
    cases step with
    | pop look now pc =>
      cases h
      refine ⟨popBehind c i look now, ⟨fun p => ⟨_, rfl, rfl, rfl⟩, fun res => ?_⟩, rfl⟩
      unfold popBehind
      split
      · rename_i heq
        cases heq
      · split
        · exact begins_goto rfl
        · exact begins_hand
      · exact begins_nothing
    | chain job pc =>
      cases h
      refine ⟨chainBehind c i job, ⟨fun p => ⟨_, rfl, rfl, rfl⟩, fun res => ?_⟩, rfl⟩
      unfold chainBehind
      split
      · rename_i heq
        cases heq
      · exact begins_ret
      · exact begins_scan
    | recheck pc =>
      cases h
      refine ⟨recheckBehind i, ⟨fun p => ⟨_, rfl, rfl, rfl⟩, fun res => ?_⟩, rfl⟩
      unfold recheckBehind
      split
      · rename_i heq
        cases heq
      · exact begins_goto rfl
      · exact begins_goto rfl
    | sockPop pc =>
      cases h
      refine ⟨sockBehind i, ⟨fun p => ⟨_, rfl, rfl, rfl⟩, fun res => ?_⟩, rfl⟩
      unfold sockBehind
      split
      · rename_i heq
        cases heq
      · exact begins_goto rfl
      · exact begins_goto rfl
    | _ => cases h
  | push lane pc =>
    cases h
    refine ⟨pushBehind c lane, ⟨fun p => ⟨_, rfl, rfl, rfl⟩, fun res => ?_⟩, rfl⟩
    unfold pushBehind
    split
    · rename_i heq
      cases heq
    · split
      · exact begins_scan
      · exact begins_goto rfl
    · exact begins_ret
  | pops lane stalled pc =>
    cases h
    refine ⟨popsBehind c lane stalled, ⟨fun p => ⟨_, rfl, rfl, rfl⟩, fun res => ?_⟩, rfl⟩
    unfold popsBehind
    split
    · rename_i heq
      cases heq
    · exact begins_start rfl rfl
    · exact begins_agedNext
  | peek lane stalled pops pc =>
    cases h
    refine ⟨peekBehind c lane stalled pops, ⟨fun p => ⟨_, rfl, rfl, rfl⟩, fun res => ?_⟩, rfl⟩
    unfold peekBehind
    split
    · rename_i heq
      cases heq
    · split
      · exact begins_scan
      · exact begins_agedNext
    · exact begins_agedNext
  | _ => cases h

theorem rings_access {m : Mem} {lane : Nat} {pc : Ring.Pc}
    {behind : Next Ring.Pc Ring.Res → Next Pc Res} :
    (m.access lane pc behind).1.rings =
      Function.update m.rings lane ((Ring.program (RingId.job lane).size).advance (m.rings lane) pc).1 := by
  funext lane'
  show (Function.update m.lanes lane _ lane').ring = _
  rcases eq_or_ne lane' lane with rfl | hne
  · rw [Function.update_self, Function.update_self]
    rfl
  · rw [Function.update_of_ne hne, Function.update_of_ne hne]
    rfl

/-- The rings of the lanes are accessed by the rings' calls only. -/
def jobRings (c : Setup) : Ring.Rings (fun lane => (RingId.job lane).size) (program c) where
  ring := Mem.rings
  target := Pc.target c
  start op a h := by
    cases op with
    | submit j lane slot =>
      cases h
      exact ⟨.push slot, rfl⟩
    | _ => cases h
  quiet m pc h := by
    obtain ⟨hrings, hbegins⟩ := quiet_advance c m pc h
    refine ⟨hrings, fun pc' a hpoint htarget => ?_⟩
    have ⟨op, hop, _⟩ := hbegins pc' a hpoint htarget
    exact ⟨op, hop⟩
  step m pc lane p h := by
    obtain ⟨behind, hbehind, hadv⟩ := access_advance c m pc h
    have hadv : (program c).advance m pc = m.access lane p behind := hadv
    rw [hadv]
    refine ⟨rings_access, fun q hq => ?_, fun res hres => ?_⟩
    · obtain ⟨pc', hgoto, htarget, -⟩ := hbehind.goto q
      refine ⟨pc', ?_, htarget⟩
      show (behind ((Ring.program (RingId.job lane).size).advance (m.rings lane) p).2).point = some pc'
      rw [hq, hgoto]
      rfl
    · have hbegins :
          Begins c (behind ((Ring.program (RingId.job lane).size).advance (m.rings lane) p).2) := by
        rw [hres]
        exact hbehind.ret res
      intro pc' a hpoint htarget
      have ⟨op, hop, _⟩ := hbegins pc' a hpoint htarget
      exact ⟨op, hop⟩

/-- Whoever is in an access to a ring is in the call that its point is for. -/
def Fitting (c : Setup) (s : State) : Prop :=
  ∀ t pc a, s.pc t = some pc → pc.target c = some a → pc.fits a.2.op = true

theorem Fitting.step {s : State} {t : Who} {pc : Pc} {m' : Mem} {nx : Next Pc Res}
    (h : Fitting c s) (hpc : s.pc t = some pc) (hadv : advance c s.mem pc = (m', nx)) :
    Fitting c (s.move t m' nx.point) := by
  have hbegins : ∀ nx' : Next Pc Res, Begins c nx' → ∀ pc' a, nx'.point = some pc' →
      pc'.target c = some a → pc'.fits a.2.op = true := by
    intro nx' hnx pc' a hpoint htarget
    have ⟨op, hop, hfits⟩ := hnx pc' a hpoint htarget
    rw [hop, Ring.op_start]
    exact hfits
  suffices hall : ∀ u p, (s.move t m' nx.point).pc u = some p →
      ∀ a, p.target c = some a → p.fits a.2.op = true from
    fun u p a hp => hall u p hp a
  refine Threads.State.forall_move (fun u p _ hp a ha => h u p a hp ha) fun pc' hpoint a ha => ?_
  have hnext : nx = (advance c s.mem pc).2 := (congrArg Prod.snd hadv).symm
  cases htarget : pc.target c with
  | none =>
    have hquiet := (quiet_advance c s.mem pc htarget).2
    rw [← hnext] at hquiet
    exact hbegins nx hquiet pc' a hpoint ha
  | some b =>
    obtain ⟨lane, p⟩ := b
    have ⟨behind, hbehind, hadv'⟩ := access_advance c s.mem pc htarget
    rw [hadv'] at hnext
    have hnext' : nx = behind ((Ring.program (RingId.job lane).size).advance (s.mem.rings lane) p).2 :=
      hnext
    cases hres : (Ring.program (RingId.job lane).size).advance (s.mem.rings lane) p with
    | mk r' nx' =>
      rw [hres] at hnext'
      cases nx' with
      | ret res =>
        exact hbegins nx (hnext' ▸ hbehind.ret res) pc' a hpoint ha
      | goto q =>
        -- the same call goes on
        have ⟨pc'', hgoto, htarget', hfits⟩ := hbehind.goto q
        rw [hnext', hgoto] at hpoint
        cases hpoint
        rw [htarget'] at ha
        cases ha
        rw [hfits, (Ring.advance_goto hres).1]
        exact h t pc (lane, p) hpc htarget

theorem Fitting.call {s : State} {t : Who} {op : Op} (h : Fitting c s) :
    Fitting c (s.move t s.mem (some (Pc.start c op))) := by
  suffices hall : ∀ u p, (s.move t s.mem (some (Pc.start c op))).pc u = some p →
      ∀ a, p.target c = some a → p.fits a.2.op = true from
    fun u p a hp => hall u p hp a
  refine Threads.State.forall_move (fun u p _ hp a ha => h u p a hp ha) fun pc' hpoint a ha => ?_
  cases op with
  | submit j lane slot =>
    cases hpoint
    cases ha
    rfl
  | _ =>
    cases hpoint
    cases ha

/-- **Every lane's ring is accessed by the ring's calls only.** -/
def hosted (c : Setup) (lane : Nat) : Ring.Hosted (RingId.job lane).size (program c) :=
  (jobRings c).hosted lane

end Pool

end Offload

end MojoHttp
