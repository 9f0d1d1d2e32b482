import Agenda.Json.Basic

/-!
# Numerals

Reading a numeral keeps at most 64 bits of its digits: digits of the whole part that do not fit any more count as zeros,
digits of the fraction that do not fit are dropped. What is kept is converted once and scaled by a power of ten.
-/

namespace Agenda

set_option autoImplicit false

/-- A spelled numeral. The digits of the parts are kept as written. -/
structure Numeral where
  negative : Bool
  whole : List Char
  fraction : Option (List Char)
  exponent : Option Int

namespace Numeral

def spanDigits (cs : List Char) : List Char × List Char :=
  (cs.takeWhile Char.isDigit, cs.dropWhile Char.isDigit)

/-- The exponent after its mark: an optional sign and at least one digit, then nothing more. -/
def parseExponent (cs : List Char) : Option Int :=
  let (negative, digits) := match cs with
    | '+' :: rest => (false, rest)
    | '-' :: rest => (true, rest)
    | rest => (false, rest)
  if digits.isEmpty || !digits.all Char.isDigit then none
  else
    let n : Int := Nat.ofDigitChars 10 digits 0
    some (if negative then -n else n)

/-- What may follow the whole part: a fraction, an exponent, both or nothing. -/
def parseTail (cs : List Char) : Option (Option (List Char) × Option Int) :=
  match cs with
  | [] => some (none, none)
  | '.' :: rest =>
    match spanDigits rest with
    | ([], _) => none
    | (fraction, []) => some (some fraction, none)
    | (fraction, c :: rest) =>
      if c = 'e' ∨ c = 'E' then (parseExponent rest).map fun e => (some fraction, some e) else none
  | c :: rest =>
    if c = 'e' ∨ c = 'E' then (parseExponent rest).map fun e => (none, some e) else none

def wholeAllowed : List Char → Bool
  | [] => false
  | ['0'] => true
  | c :: _ => c ≠ '0'

def parse (cs : List Char) : Option Numeral :=
  let (negative, body) := match cs with
    | '-' :: rest => (true, rest)
    | rest => (false, rest)
  let (whole, rest) := spanDigits body
  if wholeAllowed whole then (parseTail rest).map fun (fraction, exponent) => ⟨negative, whole, fraction, exponent⟩
  else none

/-- Takes up digits as long as the number fits into 64 bits; the digits left over are returned. -/
def accumulate : Nat → List Char → Nat × List Char
  | n, [] => (n, [])
  | n, c :: rest =>
    let next := n * 10 + (c.toNat - '0'.toNat)
    if next < UInt64.size then accumulate next rest else (n, c :: rest)

def powerOfTen (n : Nat) : Float := Float.ofScientific 1 false n

/-- Divides by `10 ^ n`, at most 308 places at a time. -/
def scaleDown (x : Float) (n : Nat) : Float :=
  if n ≤ 308 then x / powerOfTen n
  else if x == 0 then x
  else scaleDown (x / powerOfTen 308) (n - 308)
termination_by n

/-- Multiplies by `10 ^ exponent`; a result beyond the largest number is refused. -/
def scale (x : Float) (exponent : Int) : Option Float :=
  if exponent < 0 then some (scaleDown x exponent.natAbs)
  else if exponent ≤ 308 then
    let y := x * powerOfTen exponent.natAbs
    if y.isInf then none else some y
  else if x == 0 then some x
  else none

/-- The number a numeral stands for. A whole numeral is an integer if it fits into 64 bits and is no negative zero. -/
def value (n : Numeral) : Option Number :=
  let sign (x : Float) : Number := .float (if n.negative then -x else x)
  let (whole, unread) := accumulate 0 n.whole
  match n.fraction, n.exponent, unread with
  | none, none, [] =>
    if n.negative then
      if whole = 0 ∨ whole > 1 <<< 63 then some (sign whole.toUInt64.toFloat) else some (.int (.ofInt (-whole)))
    else if whole < 1 <<< 63 then some (.int (.ofNat whole))
    else some (sign whole.toUInt64.toFloat)
  | fraction, exponent, unread =>
    let digits := fraction.getD []
    let (significand, dropped) := accumulate whole digits
    let places : Int := unread.length - (digits.length - dropped.length)
    (scale significand.toUInt64.toFloat (exponent.getD 0 + places)).map sign

end Numeral

end Agenda
