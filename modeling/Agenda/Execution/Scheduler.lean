import Agenda.Execution.Frame

/-!
# Schedulers

Branches that run side by side have a slot each. A slot that can go on is dispatched and reads `blocked` until its
transition completes; then it reads what remains of the branch, or `done`. The transitions under way are the flights of
the scheduler. Flights that complete together form a batch, which is folded into the shared state in the order in which
its flights were dispatched.

A construct looks at the flights in its queue one after the other, and every flight that cannot go on waits outside of
the queue. A series of looks in which no flight comes to an end is a sweep. A sweep is cut short after as many looks as
there are flights, and by a second flight that asks for another look. A construct whose sweep is cut short before
anything came to an end asks for another look itself, so that everything else gets its turn in between. A construct
passes every request on at once, whatever becomes of the flight that made it; only while it gathers a batch it keeps
requests to itself, as another sweep follows anyway.

What a flight is working on is a parameter here.
-/

namespace Agenda

set_option autoImplicit false

/-- A transition under way: its slot, its number in the order of dispatch, and what surrounds the work. -/
structure Flight (τ : Type) where
  slot : Nat
  seq : Nat
  frames : List Frame
  work : τ

structure Completion where
  slot : Nat
  seq : Nat
  frames : List Frame
  outcome : Except Failure Outcome

/-- Where a construct is in looking at its flights. -/
inductive Attention where
  /-- In a sweep: the looks taken, the flights that asked for another one, and whether the construct will ask. -/
  | looking (taken asks : Nat) (again : Bool)
  /-- Between two looks at the construct: whether it asks for another one. -/
  | resting (again : Bool)

namespace Attention

def fresh : Attention := .looking 0 0 false

def isResting : Attention → Bool
  | .looking _ _ _ => false
  | .resting _ => true

/-- Whether the construct asks, or will ask, for another look. -/
def again : Attention → Bool
  | .looking _ _ again => again
  | .resting again => again

/-- Whether a sweep over a number of flights is cut short. -/
def isSpent (flights : Nat) : Attention → Bool
  | .looking taken asks _ => 2 ≤ asks || taken == flights
  | .resting _ => false

def renewed (a : Attention) : Attention := .looking 0 0 a.again

/-- One look taken at a flight that cannot go on and that may ask for another one. -/
def looked (asks : Bool) : Attention → Attention
  | .looking taken n again => .looking (taken + 1) (n + asks.toNat) again
  | .resting again => .resting again

def passOn (request : Bool) : Attention → Attention
  | .looking taken n again => .looking taken n (again || request)
  | .resting again => .resting again

end Attention

/-- The state of a `conc` or an `either`. -/
structure Scheduler (τ : Type) where
  kind : Control
  slots : List Program
  state : State
  scope : Nat
  /-- The scopes of the constructs around it. -/
  outer : List Nat
  queue : List (Flight τ) := []
  waiting : List (Flight τ) := []
  nextSeq : Nat := 0
  result : Option Value := none
  applied : List Update := []
  /-- The transitions that came to an end and are not folded yet. -/
  batch : List Completion := []
  attention : Attention := .fresh

namespace Scheduler

variable {τ : Type}

def flights (s : Scheduler τ) : List (Flight τ) := s.queue ++ s.waiting

/-- A race is finished by its first branch that is done, any other construct when all are. -/
def slotsFinished (kind : Control) (slots : List Program) : Bool :=
  if kind = .either then slots.any Program.isDone else slots.all Program.isDone

def isFinished (s : Scheduler τ) : Bool := slotsFinished s.kind s.slots

def outcome (s : Scheduler τ) : Outcome := ⟨s.state, s.result, s.applied⟩

/-- What a slot reads after a transition: what remains of its branch, unless that may end as it is. -/
def nextSlot (s : State) : Option Program → Except Failure Program
  | none => .ok .done
  | some p => do
    if ← p.isFinal s then return .done else return p

def absorb (s : Scheduler τ) (slot : Nat) (t : Successor) : Except Failure (Scheduler τ) := do
  let state := Update.applyAll s.state t.updates
  let next ← nextSlot state t.continuation
  return { s with
    slots := s.slots.set slot next
    state
    result := t.result.or s.result
    applied := s.applied ++ t.updates }

def complete (s : Scheduler τ) (c : Completion) : Except Failure (Scheduler τ) :=
  match c.outcome with
  | .error e => .error e
  | .ok o => s.absorb c.slot (Frame.resume c.frames o)

/-- Folds transitions in order. What comes after the construct is finished is discarded. -/
def foldAll (s : Scheduler τ) : List Completion → Except Failure (Scheduler τ)
  | [] => .ok s
  | c :: rest =>
    if s.isFinished then .ok s
    else do
      let s ← s.complete c
      foldAll s rest

def foldBatch (s : Scheduler τ) : Except Failure (Scheduler τ) :=
  { s with batch := [] }.foldAll (s.batch.mergeSort (fun a b => a.seq ≤ b.seq))

end Scheduler

end Agenda
