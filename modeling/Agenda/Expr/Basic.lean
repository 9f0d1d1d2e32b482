import Agenda.Value

/-!
# Expressions

Conditions and arguments are expressions over references to the state.
-/

namespace Agenda

set_option autoImplicit false

inductive Literal where
  | null
  | bool (b : Bool)
  | int (n : Int64)
  | float (x : Float)
  | text (s : String)

inductive Operator where
  | eq | ne | lt | le | gt | ge | and | or | add | sub | mul | div | mod
deriving DecidableEq, Repr

inductive Expr where
  | ref (path : String)
  | const (literal : Literal)
  | op (operator : Operator) (left right : Expr)

namespace Literal

def toValue : Literal → Value
  | .null => .null
  | .bool b => .bool b
  | .int n => .int n
  | .float x => .float x
  | .text s => .text s

end Literal

namespace Operator

def all : List Operator := [.eq, .ne, .lt, .le, .gt, .ge, .and, .or, .add, .sub, .mul, .div, .mod]

/-- The operator as it is shown. -/
def symbol : Operator → String
  | .eq => "=="
  | .ne => "!="
  | .lt => "<"
  | .le => "<="
  | .gt => ">"
  | .ge => ">="
  | .and => "&&"
  | .or => "||"
  | .add => "+"
  | .sub => "-"
  | .mul => "*"
  | .div => "/"
  | .mod => "%"

/-- The operator as it is written in documents. -/
def name : Operator → String
  | .eq => "eq"
  | .ne => "ne"
  | .lt => "lt"
  | .le => "le"
  | .gt => "gt"
  | .ge => "ge"
  | .and => "and"
  | .or => "or"
  | .add => "add"
  | .sub => "sub"
  | .mul => "mul"
  | .div => "div"
  | .mod => "mod"

def ofName? (s : String) : Option Operator := all.find? (·.name == s)

theorem ofName?_name (o : Operator) : ofName? o.name = some o := by cases o <;> rfl

end Operator

namespace Expr

def display : Expr → String
  | .ref path => path
  | .const literal => literal.toValue.display
  | .op operator left right =>
    "(" ++ left.display ++ " " ++ operator.symbol ++ " " ++ right.display ++ ")"

end Expr

end Agenda
