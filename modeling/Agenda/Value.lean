import Agenda.Decimal.Layout
import Agenda.Fields
import Agenda.Text.Quoted

/-!
# Values

The values that facts, variables, arguments and results hold.
-/

namespace Agenda

set_option autoImplicit false

inductive Value where
  | null
  | bool (b : Bool)
  | int (n : Int64)
  | float (x : Float)
  | text (s : String)
  | list (items : List Value)
  | record (fields : List (String × Value))

namespace Value

instance : Inhabited Value := ⟨.null⟩

def kind : Value → String
  | .null => "null"
  | .bool _ => "bool"
  | .int _ => "int"
  | .float _ => "float"
  | .text _ => "text"
  | .list _ => "list"
  | .record _ => "record"

def isNull : Value → Bool
  | .null => true
  | _ => false

def asText? : Value → Option String
  | .text s => some s
  | _ => none

def asBool? : Value → Option Bool
  | .bool b => some b
  | _ => none

def asFloat? : Value → Option Float
  | .int n => some n.toFloat
  | .float x => some x
  | _ => none

def maxCount : Nat := UInt64.size - 1

/-- A number that is whole and not negative, as a count; a number beyond the largest count is that count. -/
def asCount? : Value → Option Nat
  | .int n => if n.toInt < 0 then none else some n.toInt.toNat
  | .float x =>
    match Parts.ofFloat x with
    | .finite negative magnitude =>
      if negative && magnitude.significand ≠ 0 then none else magnitude.toNat?.map (min maxCount)
    | _ => none
  | _ => none

mutual
/-- Strict equality: an integer is never equal to a floating-point number, and the order of a record's fields
does not matter. -/
def equals : Value → Value → Bool
  | .null, .null => true
  | .bool a, .bool b => a == b
  | .int a, .int b => a == b
  | .float a, .float b => a == b
  | .text a, .text b => a == b
  | .list as, .list bs => equalItems as bs
  | .record as, .record bs => as.length == bs.length && equalFields as bs
  | _, _ => false
termination_by structural v => v

def equalItems : List Value → List Value → Bool
  | [], [] => true
  | a :: as, b :: bs => equals a b && equalItems as bs
  | _, _ => false
termination_by structural items => items

/-- Every field of the first list has an equal field of its name in the second. -/
def equalFields : List (String × Value) → List (String × Value) → Bool
  | [], _ => true
  | (name, a) :: rest, bs =>
    (match Fields.get? bs name with
      | some b => equals a b
      | none => false) && equalFields rest bs
termination_by structural fields => fields
end

def looselyEquals : Value → Value → Bool
  | .int a, .float b => a.toFloat == b
  | .float a, .int b => b.toFloat == a
  | a, b => a.equals b

/-- Numbers are shown with all their places, and without a point if they are whole. -/
def numberLayout : Decimal.Layout where
  tie := .up
  positional _ := true
  keepsPoint := false

def showFloat (x : Float) : String :=
  match Parts.ofFloat x with
  | .nan => "NaN"
  | .infinite negative => if negative then "-inf" else "inf"
  | .finite negative magnitude => String.ofList (numberLayout.signed negative magnitude)

def showInt (n : Int64) : String := toString n.toInt

mutual
/-- The value as it is shown. The names of fields are not quoted. -/
def display : Value → String
  | .null => "null"
  | .bool true => "true"
  | .bool false => "false"
  | .int n => showInt n
  | .float x => showFloat x
  | .text s => Text.quote s
  | .list items => "[" ++ displayItems items ++ "]"
  | .record fields => "\x7b" ++ displayFields fields ++ "\x7d"
termination_by structural v => v

def displayItems : List Value → String
  | [] => ""
  | [v] => display v
  | v :: rest => display v ++ ", " ++ displayItems rest
termination_by structural items => items

def displayFields : List (String × Value) → String
  | [] => ""
  | [(name, v)] => name ++ ": " ++ display v
  | (name, v) :: rest => name ++ ": " ++ display v ++ ", " ++ displayFields rest
termination_by structural fields => fields
end

end Value

end Agenda
