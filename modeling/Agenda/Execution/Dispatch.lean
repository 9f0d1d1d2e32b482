import Agenda.Execution.Work
import Agenda.Transition.Plan

/-!
# Dispatching

Dispatching a program does at once all that needs no waiting: it finds the statement that is next, looks up its action,
checks that it is possible and starts it. Branches that run side by side are all dispatched.
-/

namespace Agenda

set_option autoImplicit false

/-- A dispatched program: what surrounds the statement that goes on, its work, and the world after it. -/
structure Launch where
  frames : List Frame := []
  work : Work
  world : World

/-- Slots after a round of dispatching, and the flights that come of it. -/
structure Round where
  slots : List Program
  flights : List (Flight Work)
  world : World

namespace Launch

def failed (e : Failure) (σ : World) : Launch := { work := .settled (.error e), world := σ }

def finished (s : State) (σ : World) : Launch := { work := .settled (.ok { state := s }), world := σ }

def within (frame : Frame) (l : Launch) : Launch := { l with frames := l.frames ++ [frame] }

end Launch

/-- A construct with the branches of a round. Its scope is the next one of the world. -/
def Launch.group (kind : Control) (s : State) (scopes : List Nat) (σ : World) (round : Round) : Launch where
  work := .group {
    kind
    slots := round.slots
    state := s
    scope := σ.nextScope
    outer := scopes
    queue := round.flights
    nextSeq := round.flights.length }
  world := round.world

namespace Round

def keep (p : Program) (r : Round) : Round := { r with slots := p :: r.slots }

def start (f : Flight Work) (r : Round) : Round := { r with slots := .blocked :: r.slots, flights := f :: r.flights }

end Round

def World.openScope (σ : World) : World := { σ with nextScope := σ.nextScope + 1 }

/-- Dispatches an action, unless it is given up or impossible. Its execution starts with the first look at it. -/
def Work.perform (scopes : List Nat) (updates : List Update) (trace : List BoundAction) (s : State)
    (bound : BoundAction) (σ : World) : Work × World :=
  if scopes.any σ.isClosed then (.settled (.error .abandoned), σ)
  else if !bound.action.possible s then (.settled (.error (.noTransition (.impossible bound.record))), σ)
  else
    (.acting { bound, after := bound.action.effect s, trace, updates, scopes },
      σ.record (.dispatched bound scopes σ.clock))

def Work.performAll (scopes : List Nat) (s : State) (σ : World) : List BoundAction → Work × World
  | [] => (.settled (.ok { state := s }), σ)
  | bound :: trace => Work.perform scopes [] trace s bound σ

namespace Program

def startsFinal (s : State) (p : Program) : Bool :=
  match p.isFinal s with
  | .ok b => b
  | .error _ => false

def finalityFailure? (s : State) : List Program → Option Failure
  | [] => none
  | p :: rest =>
    match p.isFinal s with
    | .error e => some e
    | .ok _ => finalityFailure? s rest

def markFinal (s : State) (branches : List Program) : List Program :=
  branches.map fun p => if p.startsFinal s then .done else p

mutual
def dispatch (c : Setting) (s : State) (scopes : List Nat) : Program → World → Launch
  | .block statements, σ => dispatchBlock c s scopes statements σ
  | .branch condition consequent none, σ =>
    match condition.decide s with
    | .error e => .failed e σ
    | .ok true => consequent.dispatch c s scopes σ
    | .ok false => .finished s σ
  | .branch condition consequent (some alternate), σ =>
    match condition.decide s with
    | .error e => .failed e σ
    | .ok true => consequent.dispatch c s scopes σ
    | .ok false => alternate.dispatch c s scopes σ
  | .test condition, σ =>
    match condition.decide s with
    | .error e => .failed e σ
    | .ok true => .finished s σ
    | .ok false => .failed (.assertionFailed condition) σ
  | .call name args, σ =>
    match c.domain.resolve s name args with
    | .error e => .failed e σ
    | .ok bound =>
      let (work, world) := Work.perform scopes [] [] s bound σ
      { work, world }
  | .bind var init, σ => (init.dispatch c s scopes σ).within (.bind var)
  | .control .or (first :: _), σ => first.dispatch c s scopes σ
  | .control .or [], σ => .failed (.noTransition .emptyChoice) σ
  | .control .plan (body :: _), σ =>
    match body.plan c.domain c.planLimit s with
    | .error e => .failed e σ
    | .ok none => .failed .planNotFound σ
    | .ok (some plan) =>
      let (work, world) := Work.performAll scopes s σ plan.trace
      { work, world }
  | .control .plan [], σ => .failed (.unsupported .emptyPlan) σ
  | .control .conc branches, σ =>
    match finalityFailure? s branches with
    | some e => .failed e σ
    | none =>
      if Scheduler.slotsFinished .conc (markFinal s branches) then
        .group .conc s scopes σ ⟨markFinal s branches, [], σ.openScope⟩
      else
        .group .conc s scopes σ
          (dispatchSlots c s (σ.nextScope :: scopes) (startsFinal s) 0 0 branches σ.openScope)
  | .control .either branches, σ =>
    match finalityFailure? s branches with
    | some e => .failed e σ
    | none =>
      if Scheduler.slotsFinished .either (markFinal s branches) then
        .group .either s scopes σ ⟨markFinal s branches, [], σ.openScope⟩
      else
        .group .either s scopes σ
          (dispatchSlots c s (σ.nextScope :: scopes) (startsFinal s) 0 0 branches σ.openScope)
  | .done, σ => .finished s σ
  | .blocked, σ => .failed (.unsupported .strayBlocked) σ
termination_by structural p => p

/-- Dispatches the first statement of a block that may not end as it is. -/
def dispatchBlock (c : Setting) (s : State) (scopes : List Nat) : List Program → World → Launch
  | [], σ => .finished s σ
  | p :: rest, σ =>
    match p.isFinal s with
    | .error e => .failed e σ
    | .ok true => dispatchBlock c s scopes rest σ
    | .ok false => (p.dispatch c s scopes σ).within (.before rest)
termination_by structural ps => ps

/-- Dispatches the slots that can go on, from the given slot and number on. A slot that is said to be final is done. -/
def dispatchSlots (c : Setting) (s : State) (scopes : List Nat) (final : Program → Bool) (slot seq : Nat) :
    List Program → World → Round
  | [], σ => ⟨[], [], σ⟩
  | p :: rest, σ =>
    if final p then
      (dispatchSlots c s scopes final (slot + 1) seq rest σ).keep .done
    else if p.isMark then
      (dispatchSlots c s scopes final (slot + 1) seq rest σ).keep p
    else
      let l := p.dispatch c s scopes σ
      (dispatchSlots c s scopes final (slot + 1) (seq + 1) rest l.world).start ⟨slot, seq, l.frames, l.work⟩
termination_by structural ps => ps
end

end Program

end Agenda
