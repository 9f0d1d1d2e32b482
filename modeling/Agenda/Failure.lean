import Agenda.Action
import Agenda.Expr.Eval
import Agenda.Program.Validity

/-!
# Failures

Everything that can keep a program from being planned or run to its end, with its cause.
-/

namespace Agenda

set_option autoImplicit false

inductive Obstacle where
  | emptyChoice
  | impossible (record : ActionRecord)
  | noRunnableBranch (kind : Control)
  /-- Nothing is under way that could end. -/
  | standstill

inductive Unsupported where
  | planBranches (count : Nat)
  | emptyPlan
  | notPlannable (kind : Control)
  | strayBlocked

inductive Failure where
  | assertionFailed (condition : Expr)
  | noTransition (obstacle : Obstacle)
  | actionFailed (record : ActionRecord) (message : String)
  | planNotFound
  | unsupported (construct : Unsupported)
  | abandoned
  | action (error : ActionError)
  | eval (error : EvalError)
  | invalid (violation : Violation)

def Obstacle.message : Obstacle → String
  | .emptyChoice => "or without branches"
  | .impossible record => record.display ++ " is not possible"
  | .noRunnableBranch kind => kind.name ++ " has no runnable branch"
  | .standstill => "nothing is under way"

def Unsupported.message : Unsupported → String
  | .planBranches count => "plan with " ++ toString count ++ " branches"
  | .emptyPlan => "plan without a body"
  | .notPlannable kind => kind.name ++ " cannot be planned over"
  | .strayBlocked => "blocked slot outside of a scheduler"

namespace Failure

def message : Failure → String
  | .assertionFailed condition => "assertion failed: " ++ condition.display
  | .noTransition obstacle => "no transition possible: " ++ obstacle.message
  | .actionFailed record message => "action " ++ record.display ++ " failed: " ++ message
  | .planNotFound => "no plan found"
  | .unsupported construct => "unsupported construct: " ++ construct.message
  | .abandoned => "branch was abandoned by its enclosing either"
  | .action error => error.message
  | .eval error => "expression error: " ++ error.message
  | .invalid violation => "invalid program: " ++ violation.message

def kind : Failure → String
  | .assertionFailed _ => "assertion"
  | .noTransition _ => "no_transition"
  | .actionFailed _ _ => "action_execution"
  | .planNotFound => "plan_not_found"
  | .unsupported _ => "unsupported"
  | .abandoned => "fatal"
  | .action _ => "fatal"
  | .eval _ => "fatal"
  | .invalid _ => "fatal"

end Failure

def Expr.decide (s : State) (condition : Expr) : Except Failure Bool :=
  (condition.holds s).mapError .eval

/-- The values of the arguments of a call, from left to right. -/
def evalArgs (s : State) : Fields Expr → Except Failure (Fields Value)
  | [] => .ok []
  | (key, e) :: rest => do
    let v ← (e.eval s).mapError .eval
    return (key, v) :: (← evalArgs s rest)

def Domain.resolve (d : Domain) (s : State) (name : String) (args : Fields Expr) : Except Failure BoundAction := do
  let values ← evalArgs s args
  (d.instantiate name values).mapError .action

end Agenda
