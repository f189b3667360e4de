import MojoHttp.Offload.Pending

/-!
# The pool's threads (`offload.mojo`, `mojo_pool.mojo`)

A pool deals its threads over its lanes and registers each before it exists: it counts on its lane,
and it may get a record with a wake channel of its own. A thread looks for a job in `next_job`, or
without waiting in `try_next_job`: on the sockets, then on its lane's ring. It spins a while, then
parks: on its own channel when it has one, else on its lane's socket. The loop submits jobs, sends
WebSocket messages and looks at aged heads, and wakes a parked thread for each. `stop_and_join`
sends every thread a pill.

* **`Setup`** — what a pool is set up with; **`deal`** — its memory once its threads are registered.
* **`program`** — the calls, one atomic access or one datagram a step.
* **`Execution`** — the threads, the loop and the stop in any interleaving.

With rings. Datagrams are read in the order they were sent. A thread's own channel always has room
for a wake and a pill; on a lane's socket a wake or a message may find none and is not sent, and a
pill is offered until there is. What the clock reads is anybody's choice.
-/

namespace MojoHttp

namespace Offload

open MojoHttp.Ring (Traced)
open Threads (Next Program)

namespace Pool

/-! ## The memory -/

/-- `_TS_RUNNING`, `_TS_PARKED`, `_TS_WOKEN`. -/
inductive ThreadState where
  | running
  | parked
  | woken
  deriving Repr, DecidableEq

/-- A datagram on a thread's own channel. -/
inductive Own where
  | poke
  | pill
  deriving Repr, DecidableEq

/-- A datagram on a lane's socket. -/
inductive Datagram where
  | poke
  | pill
  | message (slot : Int)
  deriving Repr, DecidableEq

/-- The words `_TR_LANE`, `_TR_STATE`, `_TR_SEQ` and `_TR_PILL` of a thread's record, and the
channel it names: the lane is -1 until the thread registers and -2 once it has left. -/
structure Rec where
  lane : Int
  state : ThreadState
  seq : Nat
  pill : Bool
  channel : List Own

/-- A lane: its job ring, its wake words and its socket. -/
structure Lane where
  ring : Traced
  poll : Int
  parked : Int
  parkedReg : Int
  spinners : Int
  threads : Int
  wakes : Int
  socket : List Datagram

/-- Whether a thread may look for another job: not once it was told to stop, nor once it has left. -/
inductive Life where
  | serving
  | stopped
  | left
  deriving Repr, DecidableEq

/-- What the pool shares. `handed` is `_WAKE_THREADS`. No call reads `pilled`, the lanes `stop` has
put every pill for. -/
structure Mem where
  lanes : Nat → Lane
  recs : Nat → Rec
  handed : Nat
  wakeSeq : Nat
  now : Int
  life : Nat → Life
  pilled : List Nat

def Lane.fresh : Lane := ⟨⟨Ring.init, [], []⟩, 0, 0, 0, 0, 0, 0, []⟩

/-- A record as `reserve_threads` makes it. -/
def Rec.fresh : Rec := ⟨-1, .running, 0, false, []⟩

def Mem.fresh : Mem := ⟨fun _ => .fresh, fun _ => .fresh, 0, 0, 0, fun _ => .serving, []⟩

/-- The memory with one lane changed. -/
def Mem.setLane (m : Mem) (lane : Nat) (f : Lane → Lane) : Mem :=
  { m with lanes := Function.update m.lanes lane (f (m.lanes lane)) }

/-- The memory with one record changed. -/
def Mem.setRec (m : Mem) (t : Nat) (f : Rec → Rec) : Mem :=
  { m with recs := Function.update m.recs t (f (m.recs t)) }

def Mem.setLife (m : Mem) (i : Nat) (life : Life) : Mem :=
  { m with life := Function.update m.life i life }

/-! ## Dealing the threads -/

/-- What a pool is set up with: its rules, its lanes, the records reserved, for each thread its lane
and whether the system gives it a wake channel, and whether a lane's socket takes a datagram behind
those queued there. -/
structure Setup where
  elastic : Bool
  parallel : Bool
  spin : Int
  lanes : Nat
  reserved : Nat
  threads : List (Nat × Bool)
  fits : List Datagram → Datagram → Bool
  dealt : ∀ t ∈ threads, t.1 < lanes

namespace Setup

variable (c : Setup)

/-- `thread_cap`: `reserve_threads` is inert without the elastic rules. -/
def cap : Nat := if c.elastic then c.reserved else 0

/-- The lane of thread `i`. -/
def lane (i : Nat) : Nat := (c.threads.getD i (0, false)).1

/-- Thread `i` has a record and a wake channel of its own. -/
def own (i : Nat) : Bool := decide (i < c.cap) && (c.threads.getD i (0, false)).2

/-- `registered_threads()`, once the threads are dealt. -/
def registered : Nat := min c.threads.length c.cap

/-- How many threads `stop_and_join` counts on a lane. -/
def dealtOn (lane : Nat) : Nat := (c.threads.filter fun t => t.1 == lane).length

end Setup

/-- `fetch_add` on `_WAKE_THREADS`. -/
def Mem.hand (m : Mem) : Mem := { m with handed := m.handed + 1 }

/-- `register_thread`: the memory behind it, and the id it returns, none for -1. -/
def registerThread (c : Setup) (m : Mem) (lane : Nat) (channel : Bool) : Mem × Option Nat :=
  let counted := m.setLane lane fun l => { l with threads := l.threads + 1 }
  if c.cap = 0 then (counted, none)
  else if c.cap ≤ m.handed then (counted.hand, none)
  else if channel then
    (counted.hand.setRec m.handed fun _ => ⟨lane, .running, 0, false, []⟩, some m.handed)
  else (counted.hand, none)

/-- `deal`: every thread of the list registers, in order. -/
def deal (c : Setup) : List (Nat × Bool) → Mem → Mem × List (Option Nat)
  | [], m => (m, [])
  | t :: ts, m =>
    let r := registerThread c m t.1 t.2
    let rest := deal c ts r.1
    (rest.1, r.2 :: rest.2)

/-- The memory of a pool whose threads are dealt. -/
def Mem.init (c : Setup) : Mem := (deal c c.threads .fresh).1

/-! ## The calls -/

/-- Who takes a step: a thread of the pool, a caller on the loop's side, whoever stops the pool, or
the clock. -/
inductive Who where
  | thread (i : Nat)
  | loop (j : Nat)
  | stopper
  | clock
  deriving Repr, DecidableEq

/-- The calls. `stalled` is what the stall rule of `wake_aged` says of a lane, its pop count and its
head. -/
inductive Op where
  | nextJob (i : Nat)
  | tryNextJob (i : Nat)
  | leavePool (i : Nat)
  | submit (j : Nat) (lane : Nat) (slot : Int)
  | sendMessage (j : Nat) (lane : Nat) (slot : Int)
  | wakeAged (j : Nat) (stalled : Nat → Nat → Int → Bool)
  | stopAndJoin
  | tick (ns : Int)

def Op.who : Op → Who
  | .nextJob i => .thread i
  | .tryNextJob i => .thread i
  | .leavePool i => .thread i
  | .submit j _ _ => .loop j
  | .sendMessage j _ _ => .loop j
  | .wakeAged j _ => .loop j
  | .stopAndJoin => .stopper
  | .tick _ => .clock

/-- What a thread is given. `JOB_NONE` is none of them. -/
inductive Job where
  | stop
  | request (slot : Int)
  | message (slot : Int)
  deriving Repr, DecidableEq

inductive Res where
  | job (job : Option Job)
  | submitted (ok : Bool)
  | sent (ok : Bool)
  | done
  | refused
  deriving Repr, DecidableEq

/-- Which call a thread is in: `try_next_job`, or `next_job` with its `spin_start` and `spinning`. -/
inductive Look where
  | once
  | next (spinStart : Int) (spinning : Bool)

/-- What a thread is about to do: in the look that both calls share, in `_park_on_own`, in
`_leave_park` with the job it has found, parked on its lane's socket, or leaving the pool. -/
inductive Step where
  | enter (look : Look)
  | pill (look : Look)
  | clock (look : Look)
  | pollLoad (look : Look) (now : Int)
  | pollStore (look : Look) (now : Int)
  | pollOwn (look : Look) (now : Int)
  | pollSocket (look : Look) (now : Int)
  | pollPoke (look : Look) (now : Int)
  | pop (look : Look) (now : Int) (pc : Ring.Pc)
  | spinUp (now : Int) (spinning : Bool)
  | spinBack (spinning : Bool)
  | spinDown (found : Option (Job × Bool))
  | chain (job : Job) (pc : Ring.Pc)
  | seqAdd
  | seqStore (seq : Nat)
  | announce
  | count
  | recheck (pc : Ring.Pc)
  | recheckSocket
  | recheckPoke
  | block
  | unpark (got : Own)
  | unparkCount (got : Own)
  | unparkStore (got : Own)
  | pollReset
  | leave (job : Job)
  | leaveCount (job : Job)
  | leaveRecv (job : Job)
  | leavePill (job : Job)
  | leaveStore (job : Job)
  | sockCount
  | sockPop (pc : Ring.Pc)
  | sockRecv
  | sockPoke
  | sockUncount (found : Option Job) (fromRing : Bool)
  | unregister
  | retire

/-- What the caller of `_wake_one` goes on with. -/
inductive After where
  | submitted
  | job (i : Nat) (job : Job)
  | aged (lane : Nat) (stalled : Nat → Nat → Int → Bool)
  | sent

/-- `_wake_registered` over the records, then the claim and the poke; then, for threads parked on
the lane's socket, the rest of `_wake_one`. -/
inductive Wake where
  | lane (t : Nat) (best : Option (Nat × Nat))
  | state (t : Nat) (best : Option (Nat × Nat))
  | seq (t : Nat) (best : Option (Nat × Nat))
  | claim (t : Nat)
  | uncount (t : Nat)
  | poke (t : Nat)
  | parked
  | wakes (parked : Int)
  | count
  | pokeSocket

inductive Stop where
  | scan (lane : Nat) (rest : List Nat) (t pilled : Nat)
  | pill (lane : Nat) (rest : List Nat) (t pilled : Nat)
  | put (lane : Nat) (rest : List Nat) (left : Nat)

inductive Pc where
  | thread (i : Nat) (step : Step)
  | push (lane : Nat) (pc : Ring.Pc)
  | spinners (lane : Nat)
  | parked (lane : Nat)
  | parkedReg (lane : Nat) (parked : Int)
  | threads (lane : Nat) (parked : Int)
  | wake (lane : Nat) (after : After) (w : Wake)
  | aged (stalled : Nat → Nat → Int → Bool)
  | pops (lane : Nat) (stalled : Nat → Nat → Int → Bool) (pc : Ring.Pc)
  | peek (lane : Nat) (stalled : Nat → Nat → Int → Bool) (pops : Nat)
      (pc : Ring.Pc)
  | send (lane : Nat) (slot : Int)
  | stopping (rest : List Nat)
  | stop (s : Stop)
  | tick (ns : Int)

/-- The lanes `stop_and_join` stops, lane 0 last. -/
def Setup.stopOrder (c : Setup) : List Nat :=
  (List.range' 1 (c.lanes - 1) ++ [0]).filter fun lane => c.dealtOn lane > 0

/-- The next lane `wake_aged` looks at, if there is one. -/
def agedNext (c : Setup) (lane : Nat) (stalled : Nat → Nat → Int → Bool) : Next Pc Res :=
  if lane < c.lanes then .goto (.pops lane stalled (Ring.Pc.start .pops)) else .ret .done

def Pc.start (c : Setup) : Op → Pc
  | .nextJob i => .thread i (.enter (.next 0 false))
  | .tryNextJob i => .thread i (.enter .once)
  | .leavePool i => .thread i .unregister
  | .submit _ lane slot => .push lane (Ring.Pc.start (.push slot))
  | .sendMessage _ lane slot => .send lane slot
  | .wakeAged _ stalled => .aged stalled
  | .stopAndJoin => .stopping c.stopOrder
  | .tick ns => .tick ns

/-! ### Waking a thread -/

/-- What a caller of `_wake_one` returns, or goes on with. -/
def afterWake (c : Setup) : After → Next Pc Res
  | .submitted => .ret (.submitted true)
  | .job _ job => .ret (.job (some job))
  | .aged lane stalled => agedNext c (lane + 1) stalled
  | .sent => .ret (.sent true)

/-- `_wake_registered` woke nobody: a message's sender is done, the others look at the threads on
the lane's socket. -/
def noneRegistered (lane : Nat) : After → Next Pc Res
  | .sent => .ret (.sent true)
  | after => .goto (.wake lane after .parked)

/-- The scan of `_wake_registered`, before record `t`. -/
def scan (c : Setup) (lane : Nat) (after : After) (t : Nat) (best : Option (Nat × Nat)) :
    Next Pc Res :=
  if t < c.registered then .goto (.wake lane after (.lane t best))
  else
    match best with
    | some b => .goto (.wake lane after (.claim b.1))
    | none => noneRegistered lane after

/-- `_wake_one`, or for a message `_wake_registered`. -/
def wakeOne (c : Setup) (lane : Nat) (after : After) : Next Pc Res :=
  scan c lane after 0 none

def wakeStep (c : Setup) (m : Mem) (lane : Nat) (after : After) :
    Wake → Mem × Next Pc Res
  | .lane t best =>
    (m, if (m.recs t).lane = lane then .goto (.wake lane after (.state t best))
      else scan c lane after (t + 1) best)
  | .state t best =>
    (m, if (m.recs t).state = .parked then .goto (.wake lane after (.seq t best))
      else scan c lane after (t + 1) best)
  | .seq t best =>
    let seq := (m.recs t).seq
    (m, scan c lane after (t + 1) (if best.all fun b => b.2 < seq then some (t, seq) else best))
  | .claim t =>
    if (m.recs t).state = .parked then
      (m.setRec t fun r => { r with state := .woken }, .goto (.wake lane after (.uncount t)))
    else (m, noneRegistered lane after)
  | .uncount t =>
    (m.setLane lane fun l => { l with parkedReg := l.parkedReg - 1 },
      .goto (.wake lane after (.poke t)))
  | .poke t =>
    (m.setRec t fun r => { r with channel := r.channel ++ [Own.poke] }, afterWake c after)
  | .parked => (m, .goto (.wake lane after (.wakes (m.lanes lane).parked)))
  | .wakes parked =>
    (m, if parked > (m.lanes lane).wakes then .goto (.wake lane after .count)
      else afterWake c after)
  | .count =>
    (m.setLane lane fun l => { l with wakes := l.wakes + 1 },
      .goto (.wake lane after .pokeSocket))
  | .pokeSocket =>
    if c.fits (m.lanes lane).socket .poke then
      (m.setLane lane fun l => { l with socket := l.socket ++ [Datagram.poke] }, afterWake c after)
    else (m, afterWake c after)

/-! ### Looking for a job -/

/-- One access to the ring of a lane. -/
def Mem.access (m : Mem) (lane : Nat) (pc : Ring.Pc)
    (behind : Next Ring.Pc Ring.Res → Next Pc Res) : Mem × Next Pc Res :=
  let step := (Ring.program (RingId.job lane).size).advance (m.lanes lane).ring pc
  (m.setLane lane fun l => { l with ring := step.1 }, behind step.2)

/-- A thread told to stop looks for no other job. -/
def Mem.give (m : Mem) (i : Nat) : Job → Mem
  | .stop => m.setLife i .stopped
  | _ => m

/-- The thread returns with `job`; without the elastic rules it wakes a sibling first if it took
the job from the ring. -/
def hand (c : Setup) (i : Nat) (job : Job) (fromRing : Bool) : Next Pc Res :=
  if fromRing && !c.elastic then .goto (.thread i (.chain job (Ring.Pc.start .isEmpty)))
  else .ret (.job (some job))

/-- A look has found `job`: a thread with the lane's idle spin gives it up first. -/
def found (c : Setup) (m : Mem) (i : Nat) (look : Look) (job : Job) (fromRing : Bool) :
    Mem × Next Pc Res :=
  match look with
  | .next _ true => (m, .goto (.thread i (.spinDown (some (job, fromRing)))))
  | _ => (m.give i job, hand c i job fromRing)

/-- Where a thread parks. -/
def park (c : Setup) (i : Nat) : Step := if c.own i then .seqAdd else .sockCount

/-- A look has found nothing: `try_next_job` returns, `next_job` spins or parks. -/
def nothing (c : Setup) (i : Nat) (look : Look) (now : Int) : Next Pc Res :=
  match look with
  | .once => .ret (.job none)
  | .next spinStart spinning =>
    if spinStart = 0 then
      .goto (.thread i (if c.elastic then .spinUp now spinning else .clock (.next now spinning)))
    else if now - spinStart ≥ c.spin then
      .goto (.thread i (if spinning then .spinDown none else park c i))
    else .goto (.thread i (.clock (.next spinStart spinning)))

def popBehind (c : Setup) (i : Nat) (look : Look) (now : Int) :
    Next Ring.Pc Ring.Res → Next Pc Res
  | .goto pc => .goto (.thread i (.pop look now pc))
  | .ret (.popped (some slot)) =>
    match look with
    | .next _ true => .goto (.thread i (.spinDown (some (.request slot, true))))
    | _ => hand c i (.request slot) true
  | .ret _ => nothing c i look now

/-- `_chain_wake`. -/
def chainBehind (c : Setup) (i : Nat) (job : Job) : Next Ring.Pc Ring.Res → Next Pc Res
  | .goto pc => .goto (.thread i (.chain job pc))
  | .ret (.isEmpty true) => .ret (.job (some job))
  | .ret _ => wakeOne c (c.lane i) (.job i job)

/-- The ring's re-check of `_park_on_own`. -/
def recheckBehind (i : Nat) : Next Ring.Pc Ring.Res → Next Pc Res
  | .goto pc => .goto (.thread i (.recheck pc))
  | .ret (.popped (some slot)) => .goto (.thread i (.leave (.request slot)))
  | .ret _ => .goto (.thread i .recheckSocket)

/-- The re-check of a thread that parks on its lane's socket. -/
def sockBehind (i : Nat) : Next Ring.Pc Ring.Res → Next Pc Res
  | .goto pc => .goto (.thread i (.sockPop pc))
  | .ret (.popped (some slot)) => .goto (.thread i (.sockUncount (some (.request slot)) true))
  | .ret _ => .goto (.thread i .sockRecv)

/-- A woken thread looks again: at the lane's socket first, and with a fresh spin. -/
def unparked (m : Mem) (i : Nat) : Own → Mem × Next Pc Res
  | .pill => (m.give i .stop, .ret (.job (some .stop)))
  | .poke => (m, .goto (.thread i .pollReset))

/-- `POOL_DGRAM_POLL_NS`. -/
def dgramPollNs : Int := 100000

/-- `next_job` and `try_next_job`, with `_park_on_own` and `_leave_park`, and `leave_pool`. A thread
blocked on an empty channel stays where it is. -/
def threadStep (c : Setup) (m : Mem) (i : Nat) : Step → Mem × Next Pc Res
  | .enter look =>
    (m, if m.life i = .serving then .goto (.thread i (.pill look)) else .ret .refused)
  | .pill look =>
    if c.own i && (m.recs i).pill then (m.give i .stop, .ret (.job (some .stop)))
    else (m, .goto (.thread i (.clock look)))
  | .clock look => (m, .goto (.thread i (.pollLoad look m.now)))
  | .pollLoad look now =>
    (m, .goto (.thread i (if now - (m.lanes (c.lane i)).poll ≥ dgramPollNs then .pollStore look now
      else .pop look now (Ring.Pc.start .pop))))
  | .pollStore look now =>
    (m.setLane (c.lane i) fun l => { l with poll := now },
      .goto (.thread i (if c.own i then .pollOwn look now else .pollSocket look now)))
  | .pollOwn look now =>
    match (m.recs i).channel with
    | [] => (m, .goto (.thread i (.pollSocket look now)))
    | .poke :: rest =>
      (m.setRec i fun r => { r with channel := rest }, .goto (.thread i (.pollSocket look now)))
    | .pill :: rest => found c (m.setRec i fun r => { r with channel := rest }) i look .stop false
  | .pollSocket look now =>
    match (m.lanes (c.lane i)).socket with
    | [] => (m, .goto (.thread i (.pop look now (Ring.Pc.start .pop))))
    | .poke :: rest =>
      (m.setLane (c.lane i) fun l => { l with socket := rest },
        .goto (.thread i (.pollPoke look now)))
    | .pill :: rest =>
      found c (m.setLane (c.lane i) fun l => { l with socket := rest }) i look .stop false
    | .message slot :: rest =>
      found c (m.setLane (c.lane i) fun l => { l with socket := rest }) i look (.message slot) false
  | .pollPoke look now =>
    (m.setLane (c.lane i) fun l => { l with wakes := l.wakes - 1 },
      .goto (.thread i (.pop look now (Ring.Pc.start .pop))))
  | .pop look now pc => m.access (c.lane i) pc (popBehind c i look now)
  | .spinUp now spinning =>
    (m.setLane (c.lane i) fun l => { l with spinners := l.spinners + 1 },
      .goto (.thread i (if (m.lanes (c.lane i)).spinners = 0 then .clock (.next now true)
        else .spinBack spinning)))
  | .spinBack spinning =>
    (m.setLane (c.lane i) fun l => { l with spinners := l.spinners - 1 },
      .goto (.thread i (if spinning then .spinDown none else park c i)))
  | .spinDown none =>
    (m.setLane (c.lane i) fun l => { l with spinners := l.spinners - 1 },
      .goto (.thread i (park c i)))
  | .spinDown (some (job, fromRing)) =>
    ((m.setLane (c.lane i) fun l => { l with spinners := l.spinners - 1 }).give i job,
      hand c i job fromRing)
  | .chain job pc => m.access (c.lane i) pc (chainBehind c i job)
  -- `_park_on_own`: announce, look again, block
  | .seqAdd => ({ m with wakeSeq := m.wakeSeq + 1 }, .goto (.thread i (.seqStore (m.wakeSeq + 1))))
  | .seqStore seq => (m.setRec i fun r => { r with seq := seq }, .goto (.thread i .announce))
  | .announce => (m.setRec i fun r => { r with state := .parked }, .goto (.thread i .count))
  | .count =>
    (m.setLane (c.lane i) fun l => { l with parkedReg := l.parkedReg + 1 },
      .goto (.thread i (.recheck (Ring.Pc.start .pop))))
  | .recheck pc => m.access (c.lane i) pc (recheckBehind i)
  | .recheckSocket =>
    match (m.lanes (c.lane i)).socket with
    | [] => (m, .goto (.thread i .block))
    | .poke :: rest =>
      (m.setLane (c.lane i) fun l => { l with socket := rest }, .goto (.thread i .recheckPoke))
    | .pill :: rest =>
      (m.setLane (c.lane i) fun l => { l with socket := rest }, .goto (.thread i (.leave .stop)))
    | .message slot :: rest =>
      (m.setLane (c.lane i) fun l => { l with socket := rest },
        .goto (.thread i (.leave (.message slot))))
  | .recheckPoke =>
    (m.setLane (c.lane i) fun l => { l with wakes := l.wakes - 1 }, .goto (.thread i .block))
  | .block =>
    match (m.recs i).channel with
    | [] => (m, .goto (.thread i .block))
    | got :: rest =>
      (m.setRec i fun r => { r with channel := rest }, .goto (.thread i (.unpark got)))
  | .unpark got =>
    if (m.recs i).state = .parked then
      (m.setRec i fun r => { r with state := .running }, .goto (.thread i (.unparkCount got)))
    else (m, .goto (.thread i (.unparkStore got)))
  | .unparkCount got =>
    unparked (m.setLane (c.lane i) fun l => { l with parkedReg := l.parkedReg - 1 }) i got
  | .unparkStore got => unparked (m.setRec i fun r => { r with state := .running }) i got
  | .pollReset =>
    (m.setLane (c.lane i) fun l => { l with poll := 0 },
      .goto (.thread i (.clock (.next 0 false))))
  -- `_leave_park`: whoever moves the state off PARKED retires the count
  | .leave job =>
    if (m.recs i).state = .parked then
      (m.setRec i fun r => { r with state := .running }, .goto (.thread i (.leaveCount job)))
    else (m, .goto (.thread i (.leaveRecv job)))
  | .leaveCount job =>
    ((m.setLane (c.lane i) fun l => { l with parkedReg := l.parkedReg - 1 }).give i job,
      .ret (.job (some job)))
  | .leaveRecv job =>
    match (m.recs i).channel with
    | [] => (m, .goto (.thread i (.leaveRecv job)))
    | .poke :: rest =>
      (m.setRec i fun r => { r with channel := rest }, .goto (.thread i (.leaveStore job)))
    | .pill :: rest =>
      (m.setRec i fun r => { r with channel := rest }, .goto (.thread i (.leavePill job)))
  | .leavePill job =>
    (m.setRec i fun r => { r with pill := true }, .goto (.thread i (.leaveStore job)))
  | .leaveStore job =>
    ((m.setRec i fun r => { r with state := .running }).give i job, .ret (.job (some job)))
  -- parked on the lane's socket
  | .sockCount =>
    (m.setLane (c.lane i) fun l => { l with parked := l.parked + 1 },
      .goto (.thread i (.sockPop (Ring.Pc.start .pop))))
  | .sockPop pc => m.access (c.lane i) pc (sockBehind i)
  | .sockRecv =>
    match (m.lanes (c.lane i)).socket with
    | [] => (m, .goto (.thread i .sockRecv))
    | .poke :: rest =>
      (m.setLane (c.lane i) fun l => { l with socket := rest }, .goto (.thread i .sockPoke))
    | .pill :: rest =>
      (m.setLane (c.lane i) fun l => { l with socket := rest },
        .goto (.thread i (.sockUncount (some .stop) false)))
    | .message slot :: rest =>
      (m.setLane (c.lane i) fun l => { l with socket := rest },
        .goto (.thread i (.sockUncount (some (.message slot)) false)))
  | .sockPoke =>
    (m.setLane (c.lane i) fun l => { l with wakes := l.wakes - 1 },
      .goto (.thread i (.sockUncount none false)))
  | .sockUncount none _ =>
    (m.setLane (c.lane i) fun l => { l with parked := l.parked - 1 },
      .goto (.thread i (.clock (.next 0 false))))
  | .sockUncount (some job) fromRing =>
    ((m.setLane (c.lane i) fun l => { l with parked := l.parked - 1 }).give i job,
      hand c i job fromRing)
  -- `leave_pool`
  | .unregister =>
    if m.life i = .left then (m, .ret .refused)
    else
      ((m.setLane (c.lane i) fun l => { l with threads := l.threads - 1 }).setLife i .left,
        .goto (.thread i .retire))
  | .retire =>
    (if c.own i then m.setRec i fun r => { r with lane := -2 } else m, .ret .done)

/-! ### The loop's side, and the stop -/

/-- `submit`, behind the push. -/
def pushBehind (c : Setup) (lane : Nat) : Next Ring.Pc Ring.Res → Next Pc Res
  | .goto pc => .goto (.push lane pc)
  | .ret (.pushed true) =>
    if !c.elastic || c.parallel then wakeOne c lane .submitted
    else .goto (.spinners lane)
  | .ret _ => .ret (.submitted false)

/-- `wake_aged` has the lane's pop count. -/
def popsBehind (c : Setup) (lane : Nat) (stalled : Nat → Nat → Int → Bool) :
    Next Ring.Pc Ring.Res → Next Pc Res
  | .goto pc => .goto (.pops lane stalled pc)
  | .ret (.pops count) => .goto (.peek lane stalled count (Ring.Pc.start .peek))
  | .ret _ => agedNext c (lane + 1) stalled

/-- `wake_aged` has the lane's head, if there is one. -/
def peekBehind (c : Setup) (lane : Nat) (stalled : Nat → Nat → Int → Bool)
    (pops : Nat) : Next Ring.Pc Ring.Res → Next Pc Res
  | .goto pc => .goto (.peek lane stalled pops pc)
  | .ret (.peeked (some slot)) =>
    if stalled lane pops slot then wakeOne c lane (.aged lane stalled)
    else agedNext c (lane + 1) stalled
  | .ret _ => agedNext c (lane + 1) stalled

/-- The next lane `stop_and_join` stops. -/
def stopNext : List Nat → Next Pc Res
  | [] => .ret .done
  | lane :: rest => .goto (.stop (.scan lane rest 0 0))

/-- `left` pills are still to be put on the lane's socket. -/
def putNext (m : Mem) (lane : Nat) (rest : List Nat) : (left : Nat) → Mem × Next Pc Res
  | 0 => ({ m with pilled := lane :: m.pilled }, stopNext rest)
  | left + 1 => (m, .goto (.stop (.put lane rest left)))

/-- The scan of `stop`, before record `t`. -/
def stopScan (c : Setup) (m : Mem) (lane : Nat) (rest : List Nat) (t pilled : Nat) :
    Mem × Next Pc Res :=
  if t < c.registered then (m, .goto (.stop (.scan lane rest t pilled)))
  else putNext m lane rest (c.dealtOn lane - pilled)

/-- `stop`: a pill for every registered thread of the lane by name, the rest to the lane's
socket. -/
def stopStep (c : Setup) (m : Mem) : Stop → Mem × Next Pc Res
  | .scan lane rest t pilled =>
    if t < c.registered ∧ (m.recs t).lane = lane then
      (m, .goto (.stop (.pill lane rest t pilled)))
    else stopScan c m lane rest (t + 1) pilled
  | .pill lane rest t pilled =>
    stopScan c (m.setRec t fun r => { r with channel := r.channel ++ [Own.pill] }) lane rest (t + 1)
      (pilled + 1)
  -- offered until there is room
  | .put lane rest left =>
    if c.fits (m.lanes lane).socket .pill then
      putNext (m.setLane lane fun l => { l with socket := l.socket ++ [Datagram.pill] }) lane rest left
    else (m, .goto (.stop (.put lane rest left)))

def advance (c : Setup) (m : Mem) : Pc → Mem × Next Pc Res
  | .thread i step => threadStep c m i step
  | .push lane pc => m.access lane pc (pushBehind c lane)
  -- `_all_idle`
  | .spinners lane =>
    (m, if (m.lanes lane).spinners > 0 then .ret (.submitted true) else .goto (.parked lane))
  | .parked lane => (m, .goto (.parkedReg lane (m.lanes lane).parked))
  | .parkedReg lane parked =>
    (m, .goto (.threads lane (parked + (m.lanes lane).parkedReg)))
  | .threads lane parked =>
    (m, if (m.lanes lane).threads ≤ parked then wakeOne c lane .submitted
      else .ret (.submitted true))
  | .wake lane after w => wakeStep c m lane after w
  | .aged stalled => (m, if c.elastic then agedNext c 0 stalled else .ret .done)
  | .pops lane stalled pc => m.access lane pc (popsBehind c lane stalled)
  | .peek lane stalled pops pc =>
    m.access lane pc (peekBehind c lane stalled pops)
  | .send lane slot =>
    if c.fits (m.lanes lane).socket (.message slot) then
      (m.setLane lane fun l => { l with socket := l.socket ++ [Datagram.message slot] },
        wakeOne c lane .sent)
    else (m, .ret (.sent false))
  | .stopping rest => (m, stopNext rest)
  | .stop s => stopStep c m s
  | .tick ns => ({ m with now := ns }, .ret .done)

def program (c : Setup) : Program Mem Pc Op Res := ⟨Pc.start c, advance c⟩

/-- Each makes its own calls, and the pool's threads are those that were dealt. -/
def may (c : Setup) (t : Who) (op : Op) : Bool :=
  op.who == t && match t with
    | .thread i => decide (i < c.threads.length)
    | _ => true

abbrev Execution (c : Setup) := ((program c).systemOf (may c) (Mem.init c)).Execution

abbrev State := Threads.State Who Mem Pc

end Pool

end Offload

end MojoHttp
