import Agenda.Expr.Basic
import Agenda.State

/-!
# Evaluation

A reference names a variable or a fact and, after points, a path into it. Variables hide facts; the first part `state`
leads past them. What is not there is null. Operators evaluate their left side first.
-/

namespace Agenda

set_option autoImplicit false

inductive EvalError where
  | typeError (operator : Operator) (expected actual : String)
  | overflow (operator : Operator)
  | divisionByZero (operator : Operator)
  | notBoolean (condition : Expr) (actual : String)

def EvalError.message : EvalError → String
  | .typeError operator expected actual =>
    "type error in '" ++ operator.symbol ++ "': expected " ++ expected ++ ", got " ++ actual
  | .overflow operator => "numeric overflow in '" ++ operator.symbol ++ "'"
  | .divisionByZero operator => "division by zero in '" ++ operator.symbol ++ "'"
  | .notBoolean condition actual =>
    "condition '" ++ condition.display ++ "' evaluated to " ++ actual ++ ", expected bool"

namespace Path

def segments : List Char → List (List Char)
  | [] => [[]]
  | c :: rest =>
    if c = '.' then [] :: segments rest
    else
      match segments rest with
      | [] => [[c]]
      | head :: tail => (c :: head) :: tail

/-- Follows named fields into a value; empty names are skipped. -/
def follow : List String → Value → Value
  | [], v => v
  | name :: rest, v =>
    if name = "" then follow rest v
    else
      match v with
      | .record fields =>
        match Fields.get? fields name with
        | some field => follow rest field
        | none => .null
      | _ => .null

def resolveIn (fields : Fields Value) (name : String) (rest : List String) : Value :=
  match fields.get? name with
  | some v => follow rest v
  | none => .null

def resolve (s : State) : List String → Value
  | [] => .null
  | head :: tail =>
    match s.vars.get? head with
    | some v => follow tail v
    | none =>
      match tail with
      | key :: rest =>
        if head = "state" ∧ tail ≠ [""] then resolveIn s.facts key rest else resolveIn s.facts head tail
      | [] => resolveIn s.facts head []

def parts (path : String) : List String := (segments path.toList).map String.ofList

end Path

namespace Value

/-- An exact integer as a value, unless it needs more than 64 bits. -/
def ofExact (operator : Operator) (n : Int) : Except EvalError Value :=
  if Int64.minValue.toInt ≤ n ∧ n ≤ Int64.maxValue.toInt then .ok (.int (.ofInt n))
  else .error (.overflow operator)

def toBool (operator : Operator) (v : Value) : Except EvalError Bool :=
  match v.asBool? with
  | some b => .ok b
  | none => .error (.typeError operator "bool" v.kind)

def toNumber (operator : Operator) (v : Value) : Except EvalError Float :=
  match v.asFloat? with
  | some x => .ok x
  | none => .error (.typeError operator "number" v.kind)

/-- Arithmetic on integers is exact; if a floating-point number takes part, both are converted. -/
def arithmetic (operator : Operator) (onInts : Int → Int → Int) (onFloats : Float → Float → Float)
    (a b : Value) : Except EvalError Value :=
  match a, b with
  | .int m, .int n => ofExact operator (onInts m.toInt n.toInt)
  | a, b => do
    let x ← a.toNumber operator
    let y ← b.toNumber operator
    return .float (onFloats x y)

def order (operator : Operator) (a b : Value) : Except EvalError Ordering :=
  match a, b with
  | .int m, .int n => .ok (compare m.toInt n.toInt)
  | .text s, .text t => .ok (compare s t)
  | a, b => do
    let x ← a.toNumber operator
    let y ← b.toNumber operator
    if x < y then return .lt
    else if x == y then return .eq
    else if y < x then return .gt
    else throw (.typeError operator "comparable pair" "NaN")

def isZero : Value → Bool
  | .int n => n == 0
  | .float x => x == 0
  | _ => false

/-- Division, rounded toward zero on integers. The least integer divided by minus one has no result of 64 bits. -/
def quotient (a b : Value) : Except EvalError Value :=
  if b.isZero then .error (.divisionByZero .div) else arithmetic .div Int.tdiv (· / ·) a b

/-- The remainder, with the sign of the dividend. It is refused where the quotient has no result. -/
def remainder (a b : Value) : Except EvalError Value :=
  if b.isZero then .error (.divisionByZero .mod)
  else
    match a, b with
    | .int m, .int n =>
      if m = Int64.minValue ∧ n = -1 then .error (.overflow .mod)
      else ofExact .mod (m.toInt.tmod n.toInt)
    | a, b => arithmetic .mod Int.tmod floatRemainder a b

def sum (a b : Value) : Except EvalError Value :=
  match a, b with
  | .text s, .text t => .ok (.text (s ++ t))
  | a, b => arithmetic .add (· + ·) (· + ·) a b

end Value

def Operator.apply (o : Operator) (a b : Value) : Except EvalError Value :=
  match o with
  | .eq => .ok (.bool (a.looselyEquals b))
  | .ne => .ok (.bool !(a.looselyEquals b))
  | .lt => do return .bool (← a.order o b).isLT
  | .le => do return .bool (← a.order o b).isLE
  | .gt => do return .bool (← a.order o b).isGT
  | .ge => do return .bool (← a.order o b).isGE
  | .add => a.sum b
  | .sub => a.arithmetic .sub (· - ·) (· - ·) b
  | .mul => a.arithmetic .mul (· * ·) (· * ·) b
  | .div => a.quotient b
  | .mod => a.remainder b
  -- `Expr.eval` decides these two by itself
  | .and | .or => do
    if ← a.toBool o then return .bool (← b.toBool o) else return .bool false

namespace Expr

/-- The value of an expression. The right side of a logical operator is evaluated only if it counts. -/
def eval (s : State) : Expr → Except EvalError Value
  | .ref path => .ok (Path.resolve s (Path.parts path))
  | .const literal => .ok literal.toValue
  | .op operator left right => do
    let a ← left.eval s
    match operator with
    | .and =>
      if ← a.toBool .and then
        let b ← right.eval s
        return .bool (← b.toBool .and)
      else return .bool false
    | .or =>
      if ← a.toBool .or then return .bool true
      else
        let b ← right.eval s
        return .bool (← b.toBool .or)
    | o =>
      let b ← right.eval s
      o.apply a b

def holds (s : State) (condition : Expr) : Except EvalError Bool := do
  let v ← condition.eval s
  match v.asBool? with
  | some b => return b
  | none => throw (.notBoolean condition v.kind)

end Expr

end Agenda
