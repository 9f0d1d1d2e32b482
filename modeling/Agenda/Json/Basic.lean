/-!
# JSON documents

A document keeps the members of an object in the order they are written in, repeated names included; what a repetition
means is for the reader of the document to say.
-/

namespace Agenda

set_option autoImplicit false

/-- A number is a 64-bit integer or a floating-point number, and the two are never mixed up. -/
inductive Number where
  | int (n : Int64)
  | float (x : Float)

inductive Json where
  | null
  | bool (b : Bool)
  | number (n : Number)
  | string (s : String)
  | array (items : List Json)
  | object (members : List (String × Json))
  /-- Something spelled properly that has no value: a number out of range, a text with an unpaired surrogate. -/
  | unreadable

namespace Json

def maxLevels : Nat := 127

mutual
def levels : Json → Nat
  | .array items => levelsOfItems items + 1
  | .object members => levelsOfMembers members + 1
  | _ => 0
termination_by structural j => j

def levelsOfItems : List Json → Nat
  | [] => 0
  | j :: rest => max j.levels (levelsOfItems rest)
termination_by structural items => items

def levelsOfMembers : List (String × Json) → Nat
  | [] => 0
  | (_, j) :: rest => max j.levels (levelsOfMembers rest)
termination_by structural members => members
end

mutual
def readable : Json → Bool
  | .array items => readableItems items
  | .object members => readableMembers members
  | .unreadable => false
  | _ => true
termination_by structural j => j

def readableItems : List Json → Bool
  | [] => true
  | j :: rest => j.readable && readableItems rest
termination_by structural items => items

def readableMembers : List (String × Json) → Bool
  | [] => true
  | (_, j) :: rest => j.readable && readableMembers rest
termination_by structural members => members
end

/-- Whether the document may be read when `outer` containers already stand around it. -/
def sound (outer : Nat) (j : Json) : Bool := j.readable && outer + j.levels ≤ maxLevels

end Json

end Agenda
