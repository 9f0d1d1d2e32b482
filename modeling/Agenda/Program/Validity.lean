import Agenda.Program.Basic

/-!
# Validity

The rules that a program has to keep before it is run or planned.
-/

namespace Agenda

set_option autoImplicit false

inductive Violation where
  | emptyControl (kind : Control)
  | planArity (count : Nat)
  | bindInit (var found : String)
  | emptyActionName
  | sentinel (kind : String)
deriving DecidableEq, Repr

def Violation.message : Violation → String
  | .emptyControl kind => kind.name ++ " requires at least one branch"
  | .planArity count => "plan takes exactly one branch, got " ++ toString count
  | .bindInit var found =>
    "binding '" ++ var ++ "' must be initialised by an action call or control construct, got " ++ found
  | .emptyActionName => "action call with empty name"
  | .sentinel kind => "scheduler sentinel '" ++ kind ++ "' is not valid in source programs"

namespace Program

def checkArity (kind : Control) (count : Nat) : Except Violation Unit :=
  if kind = .plan then if count = 1 then .ok () else .error (.planArity count)
  else if count = 0 then .error (.emptyControl kind) else .ok ()

/-- Only a call or a construct has a result that can be bound. -/
def checkInit (var : String) : Program → Except Violation Unit
  | .call _ _ => .ok ()
  | .control _ _ => .ok ()
  | p => .error (.bindInit var p.kind)

mutual
/-- Checks a program from the outside in and from left to right. -/
def validate : Program → Except Violation Unit
  | .block statements => validateAll statements
  | .branch _ consequent none => consequent.validate
  | .branch _ consequent (some alternate) => do
    consequent.validate
    alternate.validate
  | .test _ => .ok ()
  | .call name _ => if name = "" then .error .emptyActionName else .ok ()
  | .bind var init => do
    checkInit var init
    init.validate
  | .control kind branches => do
    checkArity kind branches.length
    validateAll branches
  | .done => .error (.sentinel "done")
  | .blocked => .error (.sentinel "blocked")
termination_by structural p => p

def validateAll : List Program → Except Violation Unit
  | [] => .ok ()
  | p :: rest => do
    p.validate
    validateAll rest
termination_by structural ps => ps
end

end Program

end Agenda
