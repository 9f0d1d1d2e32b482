import Agenda.Action
import Agenda.Domain.Roads

/-!
# The standard domain

Actions that every program can use, the drive along a road, and actions on single facts. How long the former take is a
parameter of the domain; an action on a fact says itself how long it takes.
-/

namespace Agenda.Domain

set_option autoImplicit false

open ActionBuilder

def wait (latency : Nat) : ActionBuilder := fun _ => .ok { latency := some latency }

/-- Takes the time that its argument says, and is not recorded. -/
def sleep : ActionBuilder := fun args => do
  let time ← requiredArg "Sleep" args "time"
  match time.asCount? with
  | some latency => return { latency := some latency, outcome := .ok (some (.bool true)), recorded := false }
  | none => throw (.invalidArgs "Sleep" ("time must be a non-negative integer, got " ++ time.display))

/-- Reports its argument without waiting, and is not recorded. -/
def identity : ActionBuilder := fun args =>
  .ok { outcome := .ok (some ((optionalArg args "value").getD .null)), recorded := false }

def fail (latency : Nat) : ActionBuilder := fun args =>
  let message := match optionalArg args "message" with
    | some (.text s) => s
    | some v => v.display
    | none => "action failed"
  .ok { latency := some latency, outcome := .error message }

def location : String := "location"

def goTo (roads : RoadMap) (latency : Nat) : ActionBuilder := fun args => do
  let destination ← requiredArg "GoTo" args location
  match destination with
  | .text place =>
    return {
      latency := some latency
      possible := fun s =>
        match s.fact? location with
        | some (.text origin) => origin ≠ place && (roads.distance? origin place).isSome
        | _ => false
      effect := fun s => s.withFact location destination }
  | _ => throw (.invalidArgs "GoTo" ("location must be text, got " ++ destination.display))

def factKey (default : String) (args : Fields Value) : String :=
  match args.get? "key" with
  | some (.text key) => key
  | _ => default

/-- An action on a fact: its time, its result and whether it is recorded come from its arguments. -/
def factAction (args : Fields Value) (possible : State → Bool) (effect : State → State) : Action where
  possible
  effect
  latency := some (((args.get? "ms").bind Value.asCount?).getD 0)
  outcome := .ok (args.get? "result")
  recorded := match args.get? "silent" with
    | some (.bool true) => false
    | _ => true

/-- The number after an integer, around from the greatest to the least; one after anything else. -/
def successor : Option Value → Value
  | some (.int n) => .int (n + 1)
  | _ => .int 1

def inc : ActionBuilder := fun args =>
  let key := factKey "count" args
  .ok (factAction args (fun _ => true) fun s => s.withFact key (successor (s.fact? key)))

def put : ActionBuilder := fun args =>
  let key := factKey "slot" args
  .ok (factAction args (fun _ => true) fun s => s.withFact key ((args.get? "value").getD .null))

def sameEntry : Option Value → Option Value → Bool
  | none, none => true
  | some a, some b => a.equals b
  | _, _ => false

/-- Is possible when a fact has a value, and changes nothing. -/
def need : ActionBuilder := fun args =>
  let key := factKey "slot" args
  .ok (factAction args (fun s => sameEntry (s.fact? key) (args.get? "value")) id)

def general (latency : Nat) : Fields ActionBuilder :=
  [("Action", wait latency), ("A", wait latency), ("Sleep", sleep), ("Identity", identity), ("Fail", fail latency)]

def onFacts : Fields ActionBuilder := [("Inc", inc), ("Put", put), ("Need", need)]

def delivery (latency : Nat) (roads : RoadMap) : Domain :=
  ⟨general latency ++ [("GoTo", goTo roads latency)]⟩

def standard (latency : Nat) (roads : RoadMap) : Domain :=
  ⟨(delivery latency roads).builders ++ onFacts⟩

end Agenda.Domain

/-- All actions, with a latency of a tenth of a second and the roads of the delivery. -/
abbrev Agenda.Setting.standard : Agenda.Setting where
  domain := .standard 100 .delivery
