import Agenda.Execution.Scheduler

/-!
# Works and the world around them

A work is what is under way: an action that executes, with the rest of its plan behind it, or a construct with all its
branches. The world around the works is the clock, the works that nobody waits for any more, and a log of what happened.

During one look from outside only so many waits may come to their end. When that allowance is used up, every execution
that comes to a wait is postponed until the look is over. Then all of them are taken up again, the last one first.
-/

namespace Agenda

set_option autoImplicit false

/-- The timer of an execution. Its ticket tells in which order timers were set. -/
inductive Timer where
  /-- The execution has not started yet. -/
  | idle
  | unset
  | set (ticket due : Nat)
  | rung

structure Execution where
  bound : BoundAction
  /-- The state with the effect of the action. -/
  after : State
  /-- The actions to execute after this one. -/
  trace : List BoundAction
  /-- The updates of the actions before this one. -/
  updates : List Update
  scopes : List Nat
  timer : Timer := .idle
  postponed : Option Nat := none

inductive Work where
  | settled (outcome : Except Failure Outcome)
  | acting (execution : Execution)
  | group (scheduler : Scheduler Work)

namespace Work

def asks : Work → Bool
  | .group s => s.attention.isResting && s.attention.again
  | _ => false

/-- Whether a work asks, or will ask, for another look. -/
def again : Work → Bool
  | .group s => s.attention.again
  | _ => false

def wake : Work → Work
  | .group s => .group { s with attention := .fresh }
  | w => w

/-- The flights with a ticket, in the order of their tickets. -/
def byTicket (flights : List (Option Nat × Flight Work)) : List (Flight Work) :=
  ((flights.filter (·.1.isSome)).mergeSort fun a b => a.1.getD 0 ≤ b.1.getD 0).map (·.2)

def ticketless (flights : List (Option Nat × Flight Work)) : List (Flight Work) :=
  (flights.filter (!·.1.isSome)).map (·.2)

mutual
/-- The greatest ticket of the postponed executions in a work. -/
def lastPostponed : Work → Option Nat
  | .settled _ => none
  | .acting e => e.postponed
  | .group s => lastPostponedOfFlights s.waiting
termination_by structural w => w

def lastPostponedOfFlights : List (Flight Work) → Option Nat
  | [] => none
  | f :: rest => Option.merge max f.work.lastPostponed (lastPostponedOfFlights rest)
termination_by structural fs => fs
end

mutual
/-- Takes up all that was postponed, and looks again at what asks for it. -/
def takeUp : Work → Work
  | .settled outcome => .settled outcome
  | .acting e => .acting { e with postponed := none }
  | .group s =>
    let flights := takeUpFlights s.waiting
    .group { s with
      queue := (takeUpFlights s.queue).map (·.2) ++ (byTicket flights).reverse
      waiting := ticketless flights
      attention :=
        if s.attention.isResting && (s.attention.again || (lastPostponedOfFlights s.waiting).isSome) then .fresh
        else s.attention }
termination_by structural w => w

def takeUpFlights : List (Flight Work) → List (Option Nat × Flight Work)
  | [] => []
  | f :: rest => (f.work.lastPostponed, { f with work := f.work.takeUp }) :: takeUpFlights rest
termination_by structural fs => fs
end

end Work

inductive Event where
  | dispatched (bound : BoundAction) (scopes : List Nat) (time : Nat)
  /-- The execution of a dispatched action was started. -/
  | started (bound : BoundAction) (scopes : List Nat) (time : Nat)
  | completed (record : ActionRecord) (time : Nat)
  /-- A construct was given up: nothing inside of its scope is dispatched after this. -/
  | closed (scope : Nat)

structure World where
  clock : Nat := 0
  /-- How many waits may still come to their end during the present look. -/
  allowance : Nat := Budget.standard
  nextTicket : Nat := 0
  nextScope : Nat := 0
  log : List Event := []
  /-- Works that nobody waits for. -/
  detached : List Work := []

def Setting.initial (c : Setting) : World := { allowance := c.budget }

namespace Event

def recorded? : Event → Option ActionRecord
  | .dispatched bound _ _ => if bound.action.recorded then some bound.record else none
  | _ => none

def completed? : Event → Option (Nat × ActionRecord)
  | .completed record time => some (time, record)
  | _ => none

def closes (scope : Nat) : Event → Bool
  | .closed id => id == scope
  | _ => false

end Event

namespace World

/-- The recorded actions in the order of their dispatch. -/
def history (σ : World) : List ActionRecord := σ.log.filterMap Event.recorded?

def completions (σ : World) : List (Nat × ActionRecord) := σ.log.filterMap Event.completed?

def isClosed (σ : World) (scope : Nat) : Bool := σ.log.any (Event.closes scope)

def record (σ : World) (e : Event) : World := { σ with log := σ.log ++ [e] }

def spend (σ : World) : World := { σ with allowance := σ.allowance - 1 }

def renew (c : Setting) (σ : World) : World := { σ with allowance := c.budget }

/-- Gives up a construct. What is under way in it goes on by itself, what is postponed included. -/
def abandon (σ : World) (scope : Nat) (works : List Work) : World :=
  { σ.record (.closed scope) with detached := σ.detached ++ works.map Work.takeUp }

end World

namespace Timer

def weight : Timer → Nat
  | .idle => 4
  | .unset => 3
  | .set _ _ => 2
  | .rung => 1

end Timer

def Execution.weight (e : Execution) : Nat := 4 * e.trace.length + e.timer.weight

/-- The share of a slot: what can be dispatched from it. -/
def Scheduler.slotWeight (p : Program) : Nat := if p.isMark then 0 else p.size

def Scheduler.slotsWeight : List Program → Nat
  | [] => 0
  | p :: rest => slotWeight p + slotsWeight rest

def Scheduler.batchWeight : List Completion → Nat
  | [] => 0
  | c :: rest => Frame.rest c.frames + 1 + batchWeight rest

def Attention.unrest : Attention → Nat
  | .looking taken asks again => if again || 0 < taken || 0 < asks then 4 else 1
  | .resting again => if again then 3 else 0

mutual
/-- A bound on what is left to do in a work; everything that happens makes it smaller. -/
def Work.weight : Work → Nat
  | .settled _ => 0
  | .acting e => e.weight
  | .group s =>
    flightsWeight s.queue + flightsWeight s.waiting + Scheduler.slotsWeight s.slots + Scheduler.batchWeight s.batch + 1
termination_by structural w => w

def Work.flightsWeight : List (Flight Work) → Nat
  | [] => 0
  | f :: rest => f.work.weight + Frame.rest f.frames + 2 + flightsWeight rest
termination_by structural fs => fs
end

mutual
/-- A bound on the looks that can be taken at a work before something happens. -/
def Work.unrest : Work → Nat
  | .settled _ => 0
  | .acting e => if e.postponed.isSome then 0 else 1
  | .group s => flightsUnrest s.queue + 4 * s.queue.length + flightsUnrest s.waiting + s.attention.unrest
termination_by structural w => w

def Work.flightsUnrest : List (Flight Work) → Nat
  | [] => 0
  | f :: rest => 4 * f.work.unrest + flightsUnrest rest
termination_by structural fs => fs
end

def Work.totalWeight : List Work → Nat
  | [] => 0
  | w :: rest => w.weight + totalWeight rest

def Work.totalUnrest : List Work → Nat
  | [] => 0
  | w :: rest => w.unrest + totalUnrest rest

end Agenda
