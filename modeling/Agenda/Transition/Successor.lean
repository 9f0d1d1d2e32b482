import Agenda.Failure

/-!
# Successors

A transition leads to a successor: the state after it, what remains of the program, and the updates that made the
one state out of the other.
-/

namespace Agenda

set_option autoImplicit false

/-- One change of the state. The effect of an action is taken anew on the state that it is applied to. -/
inductive Update where
  | effect (bound : BoundAction)
  | bind (var : String) (value : Value)

def Update.apply (s : State) : Update → State
  | .effect bound => bound.action.effect s
  | .bind var value => s.bindVar var value

def Update.applyAll (s : State) (updates : List Update) : State := updates.foldl Update.apply s

structure Successor where
  continuation : Option Program
  state : State
  /-- The result of the action, for a binding around it. -/
  result : Option Value := none
  planStep : List BoundAction := []
  updates : List Update := []

namespace Successor

def finished (s : State) : Successor := { continuation := none, state := s }

def remaining (t : Successor) : Program := t.continuation.getD .done

/-- Puts what remains of a statement in front of the statements after it. -/
def resequence (head : Option Program) (rest : List Program) : Option Program :=
  match head, rest with
  | none, [] => none
  | none, p :: rest => some (.block (p :: rest))
  | some p, rest => some (.block (p :: rest))

def before (rest : List Program) (t : Successor) : Successor :=
  { t with continuation := resequence t.continuation rest }

/-- The successor of a binding whose initialiser has this successor: the result is bound when nothing remains. -/
def bound (var : String) (t : Successor) : Successor :=
  match t.continuation with
  | some init => { t with continuation := some (.bind var init) }
  | none =>
    let value := t.result.getD .null
    { t with
      state := t.state.bindVar var value
      result := none
      updates := t.updates ++ [.bind var value] }

theorem sizeOption_resequence (head : Option Program) (rest : List Program) :
    Program.sizeOption (resequence head rest) ≤ Program.sizeOption head + Program.sizes rest + 2 := by
  cases head <;> cases rest <;> simp [resequence, Program.sizeOption, Program.size, Program.sizes]

theorem callsOption_resequence (head : Option Program) (rest : List Program) :
    Program.callsOption (resequence head rest) = Program.callsOption head + Program.callsOfAll rest := by
  cases head <;> cases rest <;> simp [resequence, Program.callsOption, Program.calls, Program.callsOfAll]

end Successor

end Agenda
