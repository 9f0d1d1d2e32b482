import Agenda.Program.Basic
import Agenda.Wire.Value

/-!
# Expressions and programs as documents

Every node is an object with named fields, or an array of the same fields in order from which fields at the end may be
left out where they can be. Names that a node does not know are skipped. The readers are given the number of levels that
may stand inside each other; no document in use has more than `Json.maxLevels`.
-/

namespace Agenda

set_option autoImplicit false

namespace Json

/-- The fields of a node in order, each with its document if it is there. A field must not be repeated, and an array
must not be longer than the list of names. -/
def fields? (names : List String) : Json → Option (List (Option Json))
  | .object members => names.mapM (member? members)
  | .array items =>
    if items.length ≤ names.length then
      some (items.map some ++ List.replicate (names.length - items.length) none)
    else none
  | _ => none

def string? : Json → Option String
  | .string s => some s
  | _ => none

/-- A name by itself, or an object with that name alone and nothing to it. -/
def name? (nothing : Json → Bool) : Json → Option String
  | .string s => some s
  | .object [(name, j)] => if nothing j then some name else none
  | _ => none

def isNull : Json → Bool
  | .null => true
  | _ => false

def isEmpty : Json → Bool
  | .null => true
  | .object [] => true
  | _ => false

end Json

namespace Literal

def ofJson : Json → Option Literal
  | .null => some .null
  | .bool b => some (.bool b)
  | .number (.int n) => some (.int n)
  | .number (.float x) => some (.float x)
  | .string s => some (.text s)
  | _ => none

def toJson (l : Literal) : Json := l.toValue.toJson

end Literal

namespace Expr

def refOfJson (j : Json) : Option Expr :=
  match Json.fields? ["ref"] j with
  | some [some (.string path)] => some (.ref path)
  | _ => none

def constOfJson (j : Json) : Option Expr :=
  match Json.fields? ["const"] j with
  | some [some literal] => (Literal.ofJson literal).map .const
  | _ => none

/-- An expression is what the first of the three forms makes of it: a reference, a constant, an operation. -/
def ofJson : Nat → Json → Option Expr
  | 0, _ => none
  | levels + 1, j =>
    ((refOfJson j).or (constOfJson j)).or
      (match Json.fields? ["op", "left", "right"] j with
        | some [some operator, some left, some right] => do
          let operator ← (Json.name? Json.isNull operator).bind Operator.ofName?
          let left ← ofJson levels left
          let right ← ofJson levels right
          return .op operator left right
        | _ => none)

def toJson : Expr → Json
  | .ref path => .object [("ref", .string path)]
  | .const literal => .object [("const", literal.toJson)]
  | .op operator left right =>
    .object [("op", .string operator.name), ("left", left.toJson), ("right", right.toJson)]

def parse (cs : List Char) : Option Expr := (Json.parseSound cs).bind (ofJson (Json.maxLevels + 1))

def entriesOfJson (levels : Nat) : List (String × Json) → Option (List (String × Expr))
  | [] => some []
  | (name, j) :: rest => do
    let e ← ofJson levels j
    return (name, e) :: (← entriesOfJson levels rest)

def fieldsToJson (fields : Fields Expr) : List (String × Json) := fields.map fun (name, e) => (name, e.toJson)

end Expr

namespace Program

/-- The forms of a program, in the order of their numbers. -/
def tags : List String := ["block", "if", "test", "call", "bind", "control", "done", "blocked"]

def fieldNames : String → List String
  | "block" => ["statements"]
  | "if" => ["test", "consequent", "alternate"]
  | "test" => ["expr"]
  | "call" => ["name", "args"]
  | "bind" => ["var", "init"]
  | "control" => ["kind", "branches"]
  | _ => []

/-- The tag of a form is its name. Inside of a program its number will do. -/
def tag? (inner : Bool) : Json → Option String
  | .string s => if tags.contains s then some s else none
  | .number (.int n) => if inner && 0 ≤ n.toInt then tags[n.toInt.toNat]? else none
  | _ => none

def node? (inner : Bool) (j : Json) : Option (String × List (Option Json)) := do
  match j with
  | .object members =>
    let tag ← (Json.theMember? members "op").bind (tag? inner)
    return (tag, ← Json.fields? (fieldNames tag) j)
  | .array (first :: rest) =>
    let tag ← tag? inner first
    return (tag, ← Json.fields? (fieldNames tag) (.array rest))
  | _ => none

def argsOfJson (levels : Nat) : Option Json → Option (Fields Expr)
  | none => some []
  | some (.object members) => (Expr.entriesOfJson levels members).map Fields.ofEntries
  | some _ => none

/-- Reads the parts of a node with the given readers for the programs in it. -/
def ofNode (levels : Nat) (one : Json → Option Program) (many : Json → Option (List Program))
    (tag : String) (fields : List (Option Json)) : Option Program :=
  match tag, fields with
  | "block", [none] => some (.block [])
  | "block", [some statements] => (many statements).map .block
  | "if", [some condition, some consequent, alternate] => do
    let condition ← Expr.ofJson levels condition
    let consequent ← one consequent
    match alternate with
    | none => return .branch condition consequent none
    | some .null => return .branch condition consequent none
    | some j => return .branch condition consequent (some (← one j))
  | "test", [some condition] => (Expr.ofJson levels condition).map .test
  | "call", [some (.string name), args] => (argsOfJson levels args).map (.call name)
  | "bind", [some (.string var), some init] => (one init).map (.bind var)
  | "control", [some kind, some branches] => do
    let kind ← (Json.name? Json.isEmpty kind).bind Control.ofName?
    return .control kind (← many branches)
  | "done", [] => some .done
  | "blocked", [] => some .blocked
  | _, _ => none

mutual
def ofJson (inner : Bool) : Nat → Json → Option Program
  | 0, _ => none
  | levels + 1, j => do
    let (tag, fields) ← node? inner j
    ofNode levels (ofJson true levels) (listOfJson levels) tag fields
termination_by structural levels => levels

def listOfJson : Nat → Json → Option (List Program)
  | 0, _ => none
  | levels + 1, .array items => items.mapM (ofJson true levels)
  | _ + 1, _ => none
termination_by structural levels => levels
end

mutual
def toJson : Program → Json
  | .block statements => .object [("op", .string "block"), ("statements", .array (listToJson statements))]
  | .branch condition consequent none =>
    .object [("op", .string "if"), ("test", condition.toJson), ("consequent", consequent.toJson)]
  | .branch condition consequent (some alternate) =>
    .object [("op", .string "if"), ("test", condition.toJson), ("consequent", consequent.toJson),
      ("alternate", alternate.toJson)]
  | .test condition => .object [("op", .string "test"), ("expr", condition.toJson)]
  | .call name args =>
    .object ([("op", .string "call"), ("name", .string name)] ++
      if args.isEmpty then [] else [("args", .object (Expr.fieldsToJson args))])
  | .bind var init => .object [("op", .string "bind"), ("var", .string var), ("init", init.toJson)]
  | .control kind branches =>
    .object [("op", .string "control"), ("kind", .string kind.name), ("branches", .array (listToJson branches))]
  | .done => .object [("op", .string "done")]
  | .blocked => .object [("op", .string "blocked")]
termination_by structural p => p

def listToJson : List Program → List Json
  | [] => []
  | p :: rest => p.toJson :: listToJson rest
termination_by structural ps => ps
end

def parse (cs : List Char) : Option Program := (Json.parseSound cs).bind (ofJson false (Json.maxLevels + 1))

end Program

end Agenda
