import Agenda.Transition.Finality
import Agenda.Transition.Successor

/-!
# Offline transitions

All successors of a program in a state, without executing anything. A call has the effect of its action; a binding
stores null, since there is no result yet.
-/

namespace Agenda.Program

set_option autoImplicit false

mutual
/-- The successors of a program, in the order in which they are to be tried. -/
def successors (d : Domain) (s : State) : Program → Except Failure (List Successor)
  | .block statements => blockSuccessors d s statements
  | .branch condition consequent none => do
    if ← condition.decide s then consequent.successors d s else return [.finished s]
  | .branch condition consequent (some alternate) => do
    if ← condition.decide s then consequent.successors d s else alternate.successors d s
  | .test condition => do
    if ← condition.decide s then return [.finished s] else return []
  | .call name args => do
    let bound ← d.resolve s name args
    if bound.action.possible s then
      return [{ continuation := none, state := bound.action.effect s, planStep := [bound] }]
    else return []
  | .bind var init => do
    return (← init.successors d s).map (.bound var)
  | .control .or branches => choiceSuccessors d s branches
  | .control .plan [body] => body.successors d s
  | .control .plan branches => .error (.unsupported (.planBranches branches.length))
  | .control .conc _ => .error (.unsupported (.notPlannable .conc))
  | .control .either _ => .error (.unsupported (.notPlannable .either))
  | .done => .ok [.finished s]
  | .blocked => .error (.unsupported .strayBlocked)
termination_by structural p => p

def blockSuccessors (d : Domain) (s : State) : List Program → Except Failure (List Successor)
  | [] => .ok [.finished s]
  | p :: rest => do
    if ← p.isFinal s then blockSuccessors d s rest
    else return (← p.successors d s).map (.before rest)
termination_by structural ps => ps

def choiceSuccessors (d : Domain) (s : State) : List Program → Except Failure (List Successor)
  | [] => .ok []
  | p :: rest => do
    let first ← p.successors d s
    return first ++ (← choiceSuccessors d s rest)
termination_by structural ps => ps
end

end Agenda.Program
