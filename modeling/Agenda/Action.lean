import Agenda.State

/-!
# Actions

An action has a precondition and an effect on the state, and it takes a time to execute, after which it reports a result
or fails. Domains say which actions there are.
-/

namespace Agenda

set_option autoImplicit false

structure ActionRecord where
  name : String
  args : Fields Value

/-- What an action is. By default it is always possible, changes nothing and ends without waiting. -/
structure Action where
  possible : State → Bool := fun _ => true
  effect : State → State := id
  /-- How many milliseconds an execution waits, if it waits at all. -/
  latency : Option Nat := none
  /-- How an execution ends: with a failure, or with a result if there is one. -/
  outcome : Except String (Option Value) := .ok none
  recorded : Bool := true

structure BoundAction where
  record : ActionRecord
  action : Action

inductive ActionError where
  | unknown (name : String)
  | invalidArgs (action reason : String)
deriving DecidableEq, Repr

def ActionError.message : ActionError → String
  | .unknown name => "unknown action '" ++ name ++ "'"
  | .invalidArgs action reason => "invalid arguments for '" ++ action ++ "': " ++ reason

def ActionRecord.display (r : ActionRecord) : String :=
  r.name ++ "(" ++ Value.displayFields r.args ++ ")"

abbrev ActionBuilder := Fields Value → Except ActionError Action

namespace ActionBuilder

def requiredArg (action : String) (args : Fields Value) (key : String) : Except ActionError Value :=
  match args.get? key with
  | some v => .ok v
  | none => .error (.invalidArgs action ("missing argument '" ++ key ++ "'"))

/-- An argument that may be left out; null is the same. -/
def optionalArg (args : Fields Value) (key : String) : Option Value :=
  (args.get? key).filter (!·.isNull)

end ActionBuilder

structure Domain where
  builders : Fields ActionBuilder

namespace Domain

def names (d : Domain) : List String := d.builders.keys.mergeSort

def instantiate (d : Domain) (name : String) (args : Fields Value) : Except ActionError BoundAction :=
  match d.builders.get? name with
  | none => .error (.unknown name)
  | some build => (build args).map fun action => ⟨⟨name, args⟩, action⟩

end Domain

/-- How many waits may come to their end during one look from outside: one at least. -/
abbrev Budget := { n : Nat // 0 < n }

def Budget.standard : Budget := ⟨128, by decide⟩

structure Setting where
  domain : Domain
  /-- The greatest number of transitions of a plan. -/
  planLimit : Option Nat := none
  budget : Budget := .standard

@[simp]
theorem Setting.budget_ne_zero (c : Setting) : c.budget.val ≠ 0 := Nat.ne_of_gt c.budget.property

end Agenda
