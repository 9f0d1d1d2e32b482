import Agenda.Expr.Basic

/-!
# Programs

A program says which actions are taken in which order, depending on the state. Four constructs compose several
programs: a choice among them (`or`), all of them side by side (`conc`), a race that the first one to end decides
(`either`), and a body that is planned as a whole before any of it is executed (`plan`).
-/

namespace Agenda

set_option autoImplicit false

inductive Control where
  | or
  | conc
  | either
  | plan
deriving DecidableEq, Repr

namespace Control

def all : List Control := [.or, .conc, .either, .plan]

def name : Control → String
  | .or => "or"
  | .conc => "conc"
  | .either => "either"
  | .plan => "plan"

def ofName? (s : String) : Option Control := all.find? (·.name == s)

theorem ofName?_name (kind : Control) : ofName? kind.name = some kind := by cases kind <;> rfl

end Control

/-- A program. The last two forms do not stand in programs to be run: they mark the slots of a construct whose branches
run side by side, a branch that is done and one that waits for its action. -/
inductive Program where
  | block (statements : List Program)
  | branch (test : Expr) (consequent : Program) (alternate : Option Program)
  | test (condition : Expr)
  | call (name : String) (args : Fields Expr)
  | bind (var : String) (init : Program)
  | control (kind : Control) (branches : List Program)
  | done
  | blocked

namespace Program

instance : Inhabited Program := ⟨.done⟩

def kind : Program → String
  | .block _ => "block"
  | .branch _ _ _ => "if"
  | .test _ => "test"
  | .call _ _ => "call"
  | .bind _ _ => "bind"
  | .control kind _ => kind.name
  | .done => "done"
  | .blocked => "blocked"

def isDone : Program → Bool
  | .done => true
  | _ => false

def isMark : Program → Bool
  | .done => true
  | .blocked => true
  | _ => false

mutual
/-- A bound on what is left to do in a program; every transition makes it smaller. -/
def size : Program → Nat
  | .block statements => sizes statements + 2
  | .branch _ consequent none => consequent.size + 2
  | .branch _ consequent (some alternate) => consequent.size + alternate.size + 2
  | .test _ => 2
  | .call _ _ => 6
  | .bind _ init => init.size + 2
  | .control _ branches => sizes branches + 3
  | .done => 2
  | .blocked => 2
termination_by structural p => p

def sizes : List Program → Nat
  | [] => 0
  | p :: rest => p.size + sizes rest
termination_by structural ps => ps
end

mutual
def calls : Program → Nat
  | .block statements => callsOfAll statements
  | .branch _ consequent none => consequent.calls
  | .branch _ consequent (some alternate) => consequent.calls + alternate.calls
  | .call _ _ => 1
  | .bind _ init => init.calls
  | .control _ branches => callsOfAll branches
  | .test _ => 0
  | .done => 0
  | .blocked => 0
termination_by structural p => p

def callsOfAll : List Program → Nat
  | [] => 0
  | p :: rest => p.calls + callsOfAll rest
termination_by structural ps => ps
end

def sizeOption : Option Program → Nat
  | none => 0
  | some p => p.size

def callsOption : Option Program → Nat
  | none => 0
  | some p => p.calls

theorem two_le_size (p : Program) : 2 ≤ p.size := by
  cases p with
  | branch test consequent alternate => cases alternate <;> simp [size]
  | _ => simp [size]

mutual
theorem calls_le_size : ∀ p : Program, 4 * p.calls ≤ p.size
  | .block statements => by
    have := callsOfAll_le_sizes statements
    simp only [calls, size]
    omega
  | .branch _ consequent none => by
    have := calls_le_size consequent
    simp only [calls, size]
    omega
  | .branch _ consequent (some alternate) => by
    have := calls_le_size consequent
    have := calls_le_size alternate
    simp only [calls, size]
    omega
  | .bind _ init => by
    have := calls_le_size init
    simp only [calls, size]
    omega
  | .control _ branches => by
    have := callsOfAll_le_sizes branches
    simp only [calls, size]
    omega
  | .call _ _ => by simp [calls, size]
  | .test _ => by simp [calls]
  | .done => by simp [calls]
  | .blocked => by simp [calls]

theorem callsOfAll_le_sizes : ∀ ps : List Program, 4 * callsOfAll ps ≤ sizes ps
  | [] => by simp [callsOfAll]
  | p :: rest => by
    have := calls_le_size p
    have := callsOfAll_le_sizes rest
    simp only [callsOfAll, sizes]
    omega
end

end Program

end Agenda
