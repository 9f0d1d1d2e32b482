import Agenda.Action
import Agenda.Json.Parser
import Agenda.Json.Printer

/-!
# Values, states and records as documents

A state is an object with the variables under `vars` and the facts beside them. Where a name is repeated among fields,
facts or variables, it keeps its first place and its last value.
-/

namespace Agenda

set_option autoImplicit false

namespace Json

/-- A member that must not be repeated; nothing if it is, and `some none` if it is not there. -/
def member? (members : List (String × Json)) (name : String) : Option (Option Json) :=
  match members.filter (·.1 == name) with
  | [] => some none
  | [(_, j)] => some (some j)
  | _ => none

def theMember? (members : List (String × Json)) (name : String) : Option Json :=
  (member? members name).join

end Json

namespace Value

mutual
def ofJson : Json → Option Value
  | .null => some .null
  | .bool b => some (.bool b)
  | .number (.int n) => some (.int n)
  | .number (.float x) => some (.float x)
  | .string s => some (.text s)
  | .array items => (itemsOfJson items).map .list
  | .object members => (entriesOfJson members).map fun entries => .record (Fields.ofEntries entries)
  | .unreadable => none
termination_by structural j => j

def itemsOfJson : List Json → Option (List Value)
  | [] => some []
  | j :: rest => do
    let v ← ofJson j
    return v :: (← itemsOfJson rest)
termination_by structural items => items

def entriesOfJson : List (String × Json) → Option (List (String × Value))
  | [] => some []
  | (name, j) :: rest => do
    let v ← ofJson j
    return (name, v) :: (← entriesOfJson rest)
termination_by structural members => members
end

mutual
def toJson : Value → Json
  | .null => .null
  | .bool b => .bool b
  | .int n => .number (.int n)
  | .float x => .number (.float x)
  | .text s => .string s
  | .list items => .array (itemsToJson items)
  | .record fields => .object (fieldsToJson fields)
termination_by structural v => v

def itemsToJson : List Value → List Json
  | [] => []
  | v :: rest => v.toJson :: itemsToJson rest
termination_by structural items => items

def fieldsToJson : List (String × Value) → List (String × Json)
  | [] => []
  | (name, v) :: rest => (name, v.toJson) :: fieldsToJson rest
termination_by structural fields => fields
end

def fieldsOfJson : Json → Option (Fields Value)
  | .object members => (entriesOfJson members).map Fields.ofEntries
  | _ => none

def parse (cs : List Char) : Option Value := (Json.parseSound cs).bind ofJson

def parseFields (cs : List Char) : Option (Fields Value) := (Json.parseSound cs).bind fieldsOfJson

end Value

namespace State

def ofJson : Json → Option State
  | .object members => do
    let vars ← match ← Json.member? members "vars" with
      | none => some []
      | some j => Value.fieldsOfJson j
    let facts ← Value.entriesOfJson (members.filter (·.1 != "vars"))
    return { vars, facts := Fields.ofEntries facts }
  | _ => none

/-- Variables are written only if there are any. -/
def toJson (s : State) : Json :=
  .object ((if s.vars.isEmpty then [] else [("vars", .object (Value.fieldsToJson s.vars))]) ++
    Value.fieldsToJson s.facts)

def parse (cs : List Char) : Option State := (Json.parseSound cs).bind ofJson

end State

namespace ActionRecord

/-- The arguments of a record, inside of one container. -/
def argsOfJson : Option Json → Option (Fields Value)
  | none => some []
  | some j => if j.sound 1 then Value.fieldsOfJson j else none

/-- A record is an object or the array of its name and arguments. Only these two are looked at. -/
def ofJson : Json → Option ActionRecord
  | .object members => do
    let name ← Json.theMember? members "name"
    let args ← Json.member? members "args"
    read name args
  | .array [name] => read name none
  | .array [name, args] => read name (some args)
  | _ => none
where
  read (name : Json) (args : Option Json) : Option ActionRecord :=
    match name with
    | .string name => (argsOfJson args).map fun args => ⟨name, args⟩
    | _ => none

def toJson (r : ActionRecord) : Json :=
  .object [("name", .string r.name), ("args", .object (Value.fieldsToJson r.args))]

def parse (cs : List Char) : Option ActionRecord := (Json.parse cs).bind ofJson

end ActionRecord

end Agenda
