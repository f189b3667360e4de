import MojoHttp.Lib.Threads

/-!
# Sharing accepts between workers (`accept_share.mojo`)

A worker that accepts a connection for a sibling raises the sibling's count of pending hand-offs,
reads the sibling's state again, and sends the connection down the sibling's channel. The sibling
takes connections off its channel and retires them from the count at the end of its pass. A worker
that leaves says so in its state and waits until the count is covered by what it has received. The
supervisor reaps a worker that has died, and forks another one for its index or gives the index up.

* **`Line`** — what there is of one worker index: its words on the page, its channel, and what its
  process keeps.
* **`program`** — every call, one access to the page or a channel a step.
* **`Execution`** — the workers and the supervisor in any interleaving. A worker that dies takes no
  more steps; once it is reaped it can take none.

The counts are unbounded. `active` and the rotation counter, which only `pick` reads, are left out:
a hand-off may go to any sibling.
-/

namespace MojoHttp

open Threads (Next Program)

namespace AcceptShare

/-! ## A worker index -/

/-- `STATE_LEFT`, `STATE_NOT_STARTED`, `STATE_PARKED`; a positive word is the start of a pass. -/
def stateLeft : Int := -1
def stateNotStarted : Int := 0
def stateParked : Int := -2

/-- Who takes a step: a worker, by its index and how many were reaped there before it, or the
supervisor. -/
inductive Who where
  | worker (index life : Nat)
  | supervisor
  deriving Repr, DecidableEq

/-- The process of an index, with its own fields `drained` and `left`, or the supervisor's drain of
an index it gave up, with what it has received. -/
inductive Process where
  | none
  | forked
  | bound
  | starting
  | running (drained : Nat) (left : Bool)
  | closing (received : Nat)
  deriving Repr, DecidableEq

/-- One worker index: the words `state`, `pending` and `taken`, the channel, and the process. No
call reads `announced`, the senders that have raised `pending` and neither sent nor taken it back,
or `lost`, what reaped workers had received and not retired. -/
structure Line where
  state : Int
  pending : Int
  taken : Int
  channel : List Int
  process : Process
  life : Nat
  announced : List Who
  lost : Nat

/-- A fresh page: no index has a process. -/
def Line.init : Line := ⟨stateNotStarted, 0, 0, [], .none, 0, [], 0⟩

abbrev Page := Nat → Line

/-- The page with line `w` changed. -/
def Page.set (m : Page) (w : Nat) (f : Line → Line) : Page := Function.update m w (f (m w))

/-! ## The calls -/

/-- What a worker does. `room` says whether the channel takes the datagram. -/
inductive Act where
  | bind
  | start
  | passBegin (now : Int)
  | receive
  | passEnd
  | leave
  | awaiting
  | send (target : Nat) (fd : Int) (room : Bool)

inductive Op where
  | worker (w life : Nat) (act : Act)
  | fork (w : Nat)
  | reap (w : Nat)
  /-- `close_reaped_handoffs`, which looks `rounds` times before its bound. -/
  | close (w rounds : Nat)

/-- The worker of a call, or the supervisor. -/
def Op.who : Op → Who
  | .worker w life _ => .worker w life
  | _ => .supervisor

inductive Res where
  | done
  | refused
  | received (fd : Option Int)
  | awaiting (answer : Bool)
  | sent (ok : Bool)
  deriving Repr, DecidableEq

/-- The access a worker is about to make. -/
inductive Step where
  | bind
  | startState
  | startLoad
  | startStore (taken : Int)
  | startRetire (taken : Int)
  | passBegin (now : Int)
  | receive
  | receiveStore (fd : Int)
  | passEnd
  | passEndRetire
  | passEndFloor
  | passEndPark
  | leave
  | awaiting
  | raise (target : Nat) (fd : Int) (room : Bool)
  | check (target : Nat) (fd : Int) (room : Bool)
  | post (target : Nat) (fd : Int) (room : Bool)
  | takeBack (target : Nat)

/-- The access the drain of a given up index is about to make. -/
inductive Close where
  | begin (rounds : Nat)
  | recv (rounds : Nat)
  | pending (rounds : Nat)
  | taken (rounds : Nat) (pending : Int)
  | took
  | zero (took : Int)
  | retire (took : Int)
  | floor

inductive Pc where
  | worker (w life : Nat) (step : Step)
  | fork (w : Nat)
  | reap (w : Nat)
  | mark (w : Nat)
  | close (w : Nat) (c : Close)

/-- The first access of a call. -/
def Act.first : Act → Step
  | .bind => .bind
  | .start => .startState
  | .passBegin now => .passBegin now
  | .receive => .receive
  | .passEnd => .passEnd
  | .leave => .leave
  | .awaiting => .awaiting
  | .send target fd room => .raise target fd room

def Pc.start : Op → Pc
  | .worker w life act => .worker w life act.first
  | .fork w => .fork w
  | .reap w => .reap w
  | .close w rounds => .close w (.begin rounds)

/-- Accepts are shared: two or more workers, and `w` is one of them. -/
def active (workers w : Nat) : Bool := decide (w < workers) && decide (1 < workers)

/-- `bind`, `start`, `pass_begin`, `receive`, `pass_end`, `leave`, `awaiting_handoffs` and
`send_with`, of the worker `w` of `workers`. A call out of its order is refused. -/
def workerStep (workers : Nat) (m : Page) (w life : Nat) : Step → Page × Next Step Res
  | .bind =>
    match (m w).process, active workers w with
    | .forked, true =>
      (m.set w fun l => { l with state := stateNotStarted, process := .bound }, .ret .done)
    | _, _ => (m, .ret .refused)
  | .startState =>
    match (m w).process with
    | .bound => (m.set w fun l => { l with state := stateParked }, .goto .startLoad)
    | _ => (m, .ret .refused)
  | .startLoad =>
    let taken := (m w).taken
    if taken > 0 then (m, .goto (.startStore taken))
    else (m.set w fun l => { l with process := .running 0 false }, .ret .done)
  | .startStore taken =>
    (m.set w fun l => { l with taken := 0, process := .starting }, .goto (.startRetire taken))
  | .startRetire taken =>
    (m.set w fun l => { l with
      pending := l.pending - taken, lost := l.lost - taken.toNat, process := .running 0 false },
      .ret .done)
  | .passBegin now =>
    match (m w).process with
    | .running _ false => (m.set w fun l => { l with state := if now > 0 then now else 1 }, .ret .done)
    -- after `leave` the stores of a pass stop
    | .running _ true => (m, .ret .done)
    | _ => (m, .ret .refused)
  | .receive =>
    match (m w).process, (m w).channel with
    | .running _ _, [] => (m, .ret (.received none))
    | .running drained left, fd :: rest =>
      (m.set w fun l => { l with channel := rest, process := .running (drained + 1) left },
        .goto (.receiveStore fd))
    | _, _ => (m, .ret .refused)
  | .receiveStore fd =>
    match (m w).process with
    | .running drained _ => (m.set w fun l => { l with taken := drained }, .ret (.received (some fd)))
    | _ => (m, .ret .refused)
  | .passEnd =>
    match (m w).process with
    | .running drained _ =>
      if drained > 0 then (m.set w fun l => { l with taken := 0 }, .goto .passEndRetire)
      else (m, .goto .passEndPark)
    | _ => (m, .ret .refused)
  | .passEndRetire =>
    match (m w).process with
    | .running drained left =>
      if (m w).pending - drained < 0 then
        (m.set w fun l => { l with pending := l.pending - drained }, .goto .passEndFloor)
      else
        (m.set w fun l => { l with
          pending := l.pending - drained, process := .running 0 left }, .goto .passEndPark)
    | _ => (m, .ret .refused)
  | .passEndFloor =>
    match (m w).process with
    | .running _ left =>
      (m.set w fun l => { l with pending := 0, process := .running 0 left }, .goto .passEndPark)
    | _ => (m, .ret .refused)
  | .passEndPark =>
    match (m w).process with
    | .running _ false => (m.set w fun l => { l with state := stateParked }, .ret .done)
    | _ => (m, .ret .done)
  | .leave =>
    match (m w).process with
    | .running drained _ =>
      (m.set w fun l => { l with state := stateLeft, process := .running drained true }, .ret .done)
    | _ => (m, .ret .refused)
  | .awaiting =>
    match (m w).process with
    | .running drained true => (m, .ret (.awaiting (decide ((m w).pending - drained > 0))))
    | _ => (m, .ret (.awaiting false))
  | .raise target fd room =>
    match (m w).process with
    | .running _ _ =>
      if target < workers ∧ target ≠ w then
        (m.set target fun l => { l with
          pending := l.pending + 1, announced := .worker w life :: l.announced },
          .goto (.check target fd room))
      else (m, .ret (.sent false))
    | _ => (m, .ret .refused)
  | .check target fd room =>
    (m, .goto (if (m target).state = stateLeft then .takeBack target else .post target fd room))
  | .post target fd room =>
    if room then
      (m.set target fun l => { l with
        channel := l.channel ++ [fd], announced := l.announced.erase (.worker w life) },
        .ret (.sent true))
    else (m, .goto (.takeBack target))
  | .takeBack target =>
    (m.set target fun l => { l with
      pending := l.pending - 1, announced := l.announced.erase (.worker w life) },
      .ret (.sent false))

/-- `close_reaped_handoffs`. -/
def closeStep (m : Page) (w : Nat) : Close → Page × Next Close Res
  | .begin rounds =>
    match (m w).process with
    | .none => (m.set w fun l => { l with process := .closing 0 }, .goto (.recv rounds))
    | _ => (m, .ret .refused)
  | .recv rounds =>
    match (m w).process, (m w).channel with
    | .closing received, _ :: rest =>
      (m.set w fun l => { l with channel := rest, process := .closing (received + 1) },
        .goto (.recv rounds))
    | _, _ => (m, .goto (.pending rounds))
  | .pending rounds => (m, .goto (.taken rounds (m w).pending))
  | .taken rounds pending =>
    match (m w).process with
    | .closing received =>
      if pending - (m w).taken - received ≤ 0 then (m, .goto .took)
      else
        match rounds with
        | 0 => (m, .goto .took)
        | rounds + 1 => (m, .goto (.recv rounds))
    | _ => (m, .ret .refused)
  | .took => (m, .goto (.zero (m w).taken))
  | .zero took => (m.set w fun l => { l with taken := 0 }, .goto (.retire took))
  | .retire took =>
    match (m w).process with
    | .closing received =>
      if took + received > 0 then
        if (m w).pending - (took + received) < 0 then
          (m.set w fun l => { l with pending := l.pending - (took + received) }, .goto .floor)
        else
          (m.set w fun l => { l with
            pending := l.pending - (took + received), lost := l.lost - took.toNat,
            process := .none }, .ret .done)
      else (m.set w fun l => { l with process := .none }, .ret .done)
    | _ => (m, .ret .refused)
  | .floor => (m.set w fun l => { l with pending := 0, process := .none }, .ret .done)

/-- What a reaped process had received and not retired. -/
def Process.drained : Process → Nat
  | .running drained _ => drained
  | _ => 0

def advance (workers : Nat) (m : Page) : Pc → Page × Next Pc Res
  | .worker w life step =>
    -- a reaped worker does nothing more
    if (m w).life = life then
      let s := workerStep workers m w life step
      (s.1, s.2.map (.worker w life))
    else (m, .ret .refused)
  | .fork w =>
    match (m w).process with
    | .none => (m.set w fun l => { l with process := .forked }, .ret .done)
    | _ => (m, .ret .refused)
  | .reap w =>
    match (m w).process with
    | .none => (m, .ret .refused)
    | .closing _ => (m, .ret .refused)
    | process =>
      (m.set w fun l => { l with
        process := .none, life := l.life + 1, lost := l.lost + process.drained }, .goto (.mark w))
  -- `mark_reaped`
  | .mark w => (m.set w fun l => { l with state := stateLeft }, .ret .done)
  | .close w c =>
    let s := closeStep m w c
    (s.1, s.2.map (.close w))

def program (workers : Nat) : Program Page Pc Op Res := ⟨Pc.start, advance workers⟩

/-- Each makes its own calls. -/
def may (t : Who) (op : Op) : Bool := op.who == t

/-- The workers of `workers` indices and their supervisor. -/
abbrev Execution (workers : Nat) :=
  ((program workers).systemOf may (fun _ => Line.init)).Execution

abbrev State := Threads.State Who Page Pc

end AcceptShare

end MojoHttp
