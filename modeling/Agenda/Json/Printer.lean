import Agenda.Decimal.Layout
import Agenda.Json.Basic

/-!
# Writing documents

Documents are written compactly or set out over lines with an indentation of two blanks.
-/

namespace Agenda.Json

set_option autoImplicit false

/-- Numbers keep a point, and have an exponent beyond sixteen places before or five after the point. -/
def numberLayout : Decimal.Layout where
  tie := .toEven
  positional e := -5 ≤ e && e ≤ 15
  keepsPoint := true

/-- A floating-point number; one that is not finite is written as null. -/
def floatChars (x : Float) : List Char :=
  match Parts.ofFloat x with
  | .finite negative magnitude => numberLayout.signed negative magnitude
  | _ => ['n', 'u', 'l', 'l']

def intChars (n : Int64) : List Char :=
  if n.toInt < 0 then '-' :: Nat.toDigits 10 n.toInt.natAbs else Nat.toDigits 10 n.toInt.natAbs

def numberChars : Number → List Char
  | .int n => intChars n
  | .float x => floatChars x

def escapeChar (c : Char) : List Char :=
  if c = '"' then ['\\', '"']
  else if c = '\\' then ['\\', '\\']
  else if c = '\n' then ['\\', 'n']
  else if c = '\r' then ['\\', 'r']
  else if c = '\t' then ['\\', 't']
  else if c = '\x08' then ['\\', 'b']
  else if c = '\x0c' then ['\\', 'f']
  else if c.toNat < 0x20 then
    ['\\', 'u', '0', '0', Nat.digitChar (c.toNat / 16), Nat.digitChar (c.toNat % 16)]
  else [c]

def stringChars (s : String) : List Char :=
  '"' :: s.toList.flatMap escapeChar ++ ['"']

mutual
def compactChars : Json → List Char
  | .null => ['n', 'u', 'l', 'l']
  | .bool true => ['t', 'r', 'u', 'e']
  | .bool false => ['f', 'a', 'l', 's', 'e']
  | .number n => numberChars n
  | .string s => stringChars s
  | .array [] => ['[', ']']
  | .array (j :: rest) => '[' :: (compactChars j ++ compactItems rest)
  | .object [] => ['\x7b', '\x7d']
  | .object ((name, j) :: rest) =>
    '\x7b' :: (stringChars name ++ ':' :: (compactChars j ++ compactMembers rest))
  | .unreadable => ['n', 'u', 'l', 'l']
termination_by structural j => j

/-- The items after the first, and the end of the array. -/
def compactItems : List Json → List Char
  | [] => [']']
  | j :: rest => ',' :: (compactChars j ++ compactItems rest)
termination_by structural items => items

def compactMembers : List (String × Json) → List Char
  | [] => ['\x7d']
  | (name, j) :: rest => ',' :: (stringChars name ++ ':' :: (compactChars j ++ compactMembers rest))
termination_by structural members => members
end

def compact (j : Json) : String := String.ofList j.compactChars

def newLine (depth : Nat) : List Char := '\n' :: List.replicate (2 * depth) ' '

mutual
/-- A document over several lines, its containers being `depth` levels deep. -/
def prettyChars (depth : Nat) : Json → List Char
  | .array (j :: rest) =>
    '[' :: (newLine (depth + 1) ++ prettyChars (depth + 1) j ++ prettyItems depth rest)
  | .object ((name, j) :: rest) =>
    '\x7b' :: (newLine (depth + 1) ++ stringChars name ++
      ':' :: ' ' :: (prettyChars (depth + 1) j ++ prettyMembers depth rest))
  | .null => ['n', 'u', 'l', 'l']
  | .bool true => ['t', 'r', 'u', 'e']
  | .bool false => ['f', 'a', 'l', 's', 'e']
  | .number n => numberChars n
  | .string s => stringChars s
  | .array [] => ['[', ']']
  | .object [] => ['\x7b', '\x7d']
  | .unreadable => ['n', 'u', 'l', 'l']
termination_by structural j => j

def prettyItems (depth : Nat) : List Json → List Char
  | [] => newLine depth ++ [']']
  | j :: rest => ',' :: (newLine (depth + 1) ++ prettyChars (depth + 1) j ++ prettyItems depth rest)
termination_by structural items => items

def prettyMembers (depth : Nat) : List (String × Json) → List Char
  | [] => newLine depth ++ ['\x7d']
  | (name, j) :: rest =>
    ',' :: (newLine (depth + 1) ++ stringChars name ++
      ':' :: ' ' :: (prettyChars (depth + 1) j ++ prettyMembers depth rest))
termination_by structural members => members
end

def pretty (j : Json) : String := String.ofList (j.prettyChars 0)

mutual
/-- The document with the members of every object sorted by name; of members with one name the last counts. -/
def sorted : Json → Json
  | .array items => .array (sortedItems items)
  | .object members => .object (sortedMembers members)
  | j => j
termination_by structural j => j

def sortedItems : List Json → List Json
  | [] => []
  | j :: rest => j.sorted :: sortedItems rest
termination_by structural items => items

/-- Members are put in from the last to the first; a name that is there already is kept as it is. -/
def sortedMembers : List (String × Json) → List (String × Json)
  | [] => []
  | (name, j) :: rest =>
    let others := sortedMembers rest
    if others.any (·.1 == name) then others
    else others.takeWhile (·.1 < name) ++ (name, j.sorted) :: others.dropWhile (·.1 < name)
termination_by structural members => members
end

end Agenda.Json
