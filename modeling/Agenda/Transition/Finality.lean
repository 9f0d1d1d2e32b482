import Agenda.Failure

/-!
# Finality

Whether a program may end in a state as it is, without another transition.
-/

namespace Agenda.Program

set_option autoImplicit false

mutual
/-- Whether the program may end in the state. Branches are asked from left to right until the answer is known. -/
def isFinal (s : State) : Program → Except Failure Bool
  | .block statements => allFinal s statements
  | .branch condition consequent none => do
    if ← condition.decide s then consequent.isFinal s else return true
  | .branch condition consequent (some alternate) => do
    if ← condition.decide s then consequent.isFinal s else alternate.isFinal s
  | .test condition => condition.decide s
  | .call _ _ => .ok false
  | .bind _ _ => .ok false
  | .control .conc branches => allFinal s branches
  | .control .plan branches => allFinal s branches
  | .control .or branches => anyFinal s branches
  | .control .either branches => anyFinal s branches
  | .done => .ok true
  | .blocked => .ok false
termination_by structural p => p

def allFinal (s : State) : List Program → Except Failure Bool
  | [] => .ok true
  | p :: rest => do
    if ← p.isFinal s then allFinal s rest else return false
termination_by structural ps => ps

def anyFinal (s : State) : List Program → Except Failure Bool
  | [] => .ok false
  | p :: rest => do
    if ← p.isFinal s then return true else anyFinal s rest
termination_by structural ps => ps
end

theorem isFinal_block_cons (s : State) (p : Program) (rest : List Program) :
    (block (p :: rest)).isFinal s =
      match p.isFinal s with
      | .error e => .error e
      | .ok true => (block rest).isFinal s
      | .ok false => .ok false := by
  simp only [isFinal, allFinal]
  cases p.isFinal s with
  | error e => rfl
  | ok final => cases final <;> rfl

end Agenda.Program
