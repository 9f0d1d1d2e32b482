import Agenda.Execution.Dispatch

/-!
# The machine

The machine advances the works one small step at a time, as long as one of them can move without waiting. When none can,
the work that is waited for is looked at again, if it asks for it or if something in it was postponed. Otherwise the
clock jumps to the next timer, and all timers that are due ring at once.

A construct looks at the flights in its queue in order. When a sweep is over, the flights that came to an end are
folded as one batch, and the slots that can go on are dispatched. Timers that ring together put their flights into the
queue in the order in which the timers were set.
-/

namespace Agenda

set_option autoImplicit false

namespace Execution

/-- How the execution of an action ends. If a plan has more actions, the next one is dispatched. -/
def complete (e : Execution) (σ : World) : Work × World :=
  let σ := σ.record (.completed e.bound.record σ.clock)
  match e.bound.action.outcome with
  | .error message => (.settled (.error (.actionFailed e.bound.record message)), σ)
  | .ok result =>
    let updates := e.updates ++ [.effect e.bound]
    match e.trace with
    | [] => (.settled (.ok ⟨e.after, result, updates⟩), σ)
    | bound :: trace => Work.perform e.scopes updates trace e.after bound σ

/-- The execution starts when it is looked at for the first time. -/
def start (e : Execution) (σ : World) : Work × World :=
  (.acting { e with timer := .unset }, σ.record (.started e.bound e.scopes σ.clock))

/-- The execution goes on when the present look is over. -/
def postpone (e : Execution) (σ : World) : Work × World :=
  (.acting { e with postponed := some σ.nextTicket }, { σ with nextTicket := σ.nextTicket + 1 })

def setTimer (e : Execution) (latency : Nat) (σ : World) : Work × World :=
  (.acting { e with timer := .set σ.nextTicket (σ.clock + latency) }, { σ with nextTicket := σ.nextTicket + 1 })

/-- An execution that has started and does not wait ends at once. Another one sets its timer, unless that is due at
once, and ends when the timer has rung; without allowance it is postponed. -/
def advance (e : Execution) (σ : World) : Option (Work × World) :=
  if e.postponed.isSome then none
  else
    match e.bound.action.latency, e.timer with
    | _, .idle => some (e.start σ)
    | none, _ => some (e.complete σ)
    | some latency, .unset =>
      if σ.allowance = 0 then some (e.postpone σ)
      else if latency = 0 then some (e.complete σ.spend)
      else some (e.setTimer latency σ)
    | some _, .set _ _ => none
    | some _, .rung => if σ.allowance = 0 then some (e.postpone σ) else some (e.complete σ.spend)

end Execution

namespace Scheduler

def works (s : Scheduler Work) : List Work := s.flights.map (·.work)

/-- The construct ends; whatever is still under way in it is given up. -/
def conclude (s : Scheduler Work) (outcome : Except Failure Outcome) (σ : World) : Work × World :=
  (.settled outcome, σ.abandon s.scope s.works)

def dispatchLive (c : Setting) (s : Scheduler Work) (σ : World) : Work × World :=
  let round := Program.dispatchSlots c s.state (s.scope :: s.outer) (fun _ => false) 0 s.nextSeq s.slots σ
  (.group { s with
    slots := round.slots
    queue := s.queue ++ round.flights
    nextSeq := s.nextSeq + round.flights.length
    attention := s.attention.renewed }, round.world)

/-- What a construct does at the end of a sweep, which may have been cut short. -/
def turn (c : Setting) (s : Scheduler Work) (short : Bool) (σ : World) : Work × World :=
  match s.batch, s.flights with
  | [], [] => (.settled (.error (.noTransition (.noRunnableBranch s.kind))), σ)
  | [], _ :: _ => (.group { s with attention := .resting (s.attention.again || short) }, σ)
  | _ :: _, _ =>
    match s.foldBatch with
    | .error e => s.conclude (.error e) σ
    | .ok t => if t.isFinished then t.conclude (.ok t.outcome) σ else t.dispatchLive c σ

/-- What a construct does with a flight in front of its queue that cannot move: it takes its end into the batch, or puts
it at the end of the queue if it asks for another look, or lets it wait. -/
def receive (s : Scheduler Work) (f : Flight Work) (rest : List (Flight Work)) : Scheduler Work :=
  match f.work with
  | .settled outcome =>
    { s with
      queue := rest
      batch := s.batch ++ [⟨f.slot, f.seq, f.frames, outcome⟩]
      attention := s.attention.renewed }
  | _ =>
    if f.work.asks then
      { s with
        queue := rest ++ [{ f with work := f.work.wake }]
        attention := s.attention.looked true }
    else
      { s with
        queue := rest
        waiting := s.waiting ++ [f]
        attention := s.attention.looked false }

/-- The flight in front moved; what it asks for is passed on unless a batch is gathered. -/
def follow (s : Scheduler Work) (f : Flight Work) (rest : List (Flight Work)) (work : Work) : Scheduler Work :=
  { s with
    queue := { f with work } :: rest
    attention := s.attention.passOn (work.again && s.batch.isEmpty) }

end Scheduler

mutual
/-- One small step of a work, if it can move without waiting and without another look at it. -/
def Work.advance (c : Setting) : Work → World → Option (Work × World)
  | .settled _, _ => none
  | .acting e, σ => e.advance σ
  | .group s, σ =>
    if s.attention.isResting then none
    else if s.isFinished then some (s.conclude (.ok s.outcome) σ)
    else if s.attention.isSpent s.flights.length then some (s.turn c true σ)
    else
      match s.queue, Work.advanceFirst c s.queue σ with
      | [], _ => some (s.turn c false σ)
      | f :: rest, some (work, σ) => some (.group (s.follow f rest work), σ)
      | f :: rest, none => some (.group (s.receive f rest), σ)
termination_by structural w => w

def Work.advanceFirst (c : Setting) : List (Flight Work) → World → Option (Work × World)
  | [], _ => none
  | f :: _, σ => f.work.advance c σ
termination_by structural fs => fs
end

namespace Work

mutual
def nextDue : Work → Option Nat
  | .settled _ => none
  | .acting e =>
    match e.timer with
    | .set _ due => some due
    | _ => none
  | .group s => nextDueOfFlights s.waiting
termination_by structural w => w

def nextDueOfFlights : List (Flight Work) → Option Nat
  | [] => none
  | f :: rest => Option.merge min f.work.nextDue (nextDueOfFlights rest)
termination_by structural fs => fs
end

mutual
/-- The least ticket of the timers in a work that are due at a time. -/
def dueTicket (time : Nat) : Work → Option Nat
  | .settled _ => none
  | .acting e =>
    match e.timer with
    | .set ticket due => if due ≤ time then some ticket else none
    | _ => none
  | .group s => dueTicketOfFlights time s.waiting
termination_by structural w => w

def dueTicketOfFlights (time : Nat) : List (Flight Work) → Option Nat
  | [] => none
  | f :: rest => Option.merge min (f.work.dueTicket time) (dueTicketOfFlights time rest)
termination_by structural fs => fs
end

mutual
def ring (time : Nat) : Work → Work
  | .settled outcome => .settled outcome
  | .acting e =>
    match e.timer with
    | .set _ due => if due ≤ time then .acting { e with timer := .rung } else .acting e
    | _ => .acting e
  | .group s =>
    let flights := ringFlights time s.waiting
    .group { s with
      queue := s.queue ++ byTicket flights
      waiting := ticketless flights
      attention := if (dueTicketOfFlights time s.waiting).isSome then .fresh else s.attention }
termination_by structural w => w

def ringFlights (time : Nat) : List (Flight Work) → List (Option Nat × Flight Work)
  | [] => []
  | f :: rest => (f.work.dueTicket time, { f with work := f.work.ring time }) :: ringFlights time rest
termination_by structural fs => fs
end

end Work

/-- One small step of a work that is looked at as often as it asks. -/
def Work.move (c : Setting) (w : Work) (σ : World) : Option (Work × World) :=
  match w.advance c σ with
  | some next => some next
  | none => if w.asks then some (w.wake, σ) else none

/-- A work that is waited for, and the world around it. -/
structure Machine where
  main : Work
  world : World

namespace Machine

/-- One small step of the first of several works that can move; the others are put around it. Each of them is looked at
by itself, so that none uses up the allowance of another. -/
def advanceDetached (c : Setting) (before : List Work) : List Work → World → Option World
  | [], _ => none
  | w :: rest, σ =>
    match w.move c { σ.renew c with detached := [] } with
    | some (work, world) =>
      some { world with detached := before ++ work :: rest ++ world.detached, allowance := σ.allowance }
    | none => advanceDetached c (before ++ [w]) rest σ

def nextDue (m : Machine) : Option Nat :=
  Option.merge min m.main.nextDue (m.world.detached.foldr (fun w t => Option.merge min w.nextDue t) none)

def ring (c : Setting) (time : Nat) (m : Machine) : Machine where
  main := m.main.ring time
  world := { m.world.renew c with clock := time, detached := m.world.detached.map (Work.ring time) }

/-- One step of the machine: a work moves, or another look from outside follows, or the clock moves. -/
def step (c : Setting) (m : Machine) : Option Machine :=
  match m.main.advance c m.world with
  | some (main, world) => some ⟨main, world⟩
  | none =>
    if m.world.allowance = 0 then some ⟨m.main.takeUp, m.world.renew c⟩
    else if m.main.asks then some ⟨m.main.wake, m.world.renew c⟩
    else
      match advanceDetached c [] m.world.detached m.world with
      | some world => some { m with world }
      | none => m.nextDue.map fun time => m.ring c time

def weight (m : Machine) : Nat := m.main.weight + Work.totalWeight m.world.detached

def fatigue (m : Machine) : Nat := if m.world.allowance = 0 then 1 else 0

def unrest (m : Machine) : Nat := m.main.unrest + Work.totalUnrest m.world.detached

end Machine

end Agenda
