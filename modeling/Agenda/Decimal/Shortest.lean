import Agenda.Binary

/-!
# The fewest digits that read back

A finite binary number `m · 2 ^ q` stands for an interval of reals, those that round to it. The decimal chosen for it is
the one with the fewest digits in that interval, and of several such decimals the nearest. All arithmetic is exact, on
natural numbers.
-/

namespace Agenda

set_option autoImplicit false

/-- A decimal `coefficient · 10 ^ exponent`. -/
structure Decimal where
  coefficient : Nat
  exponent : Int
deriving Repr, DecidableEq

namespace Decimal

/-- Which of two equally near decimals is chosen. -/
inductive Tie where
  | up
  | toEven
deriving Repr, DecidableEq

/-- How many decimal digits a natural number has; zero has none. -/
def digitCount (n : Nat) : Nat :=
  if n = 0 then 0 else (Nat.toDigits 10 n).length

def strip : Nat → Decimal → Decimal
  | 0, d => d
  | n + 1, d =>
    if d.coefficient ≠ 0 ∧ d.coefficient % 10 = 0 then strip n ⟨d.coefficient / 10, d.exponent + 1⟩ else d

end Decimal

namespace Binary

/-- The denominator of the number, counted in quarters of its last place. -/
def denominator (x : Binary) : Nat := 1 <<< (2 - x.exponent).toNat

/-- The numerator over that denominator of `quarters` quarters of the last place. -/
def numerator (x : Binary) (quarters : Nat) : Nat := quarters <<< (x.exponent - 2).toNat

/-- The lower end of the interval in quarters. Below a power of two the neighbour is half as far. -/
def lowerQuarters (x : Binary) : Nat :=
  if x.significand = leadingBit ∧ x.exponent ≠ -1074 then 4 * x.significand - 1 else 4 * x.significand - 2

def upperQuarters (x : Binary) : Nat := 4 * x.significand + 2

def leading (x : Binary) : Int :=
  let num := x.numerator (4 * x.significand)
  let den := x.denominator
  if den ≤ num then Decimal.digitCount (num / den) - 1
  else -(Decimal.digitCount ((den - 1) / num) : Int)

/-- Whether the decimal rounds to the number; the ends belong to the interval when the significand is even. -/
def admits (x : Binary) (d : Decimal) : Bool :=
  let value := d.coefficient * Nat.pow 10 d.exponent.toNat * x.denominator
  let scale := Nat.pow 10 (-d.exponent).toNat
  let lower := x.numerator x.lowerQuarters * scale
  let upper := x.numerator x.upperQuarters * scale
  if x.significand % 2 = 0 then lower ≤ value && value ≤ upper else lower < value && value < upper

/-- The best decimal on the grid of the given exponent, if one of the two neighbours there is admitted. -/
def onGrid (x : Binary) (tie : Decimal.Tie) (exponent : Int) : Option Decimal :=
  let num := x.numerator (4 * x.significand) * Nat.pow 10 (-exponent).toNat
  let den := x.denominator * Nat.pow 10 exponent.toNat
  let below : Decimal := ⟨num / den, exponent⟩
  let above : Decimal := ⟨num / den + 1, exponent⟩
  match x.admits below, x.admits above with
  | false, false => none
  | true, false => some below
  | false, true => some above
  | true, true =>
    let rest := 2 * (num % den)
    if rest < den then some below
    else if den < rest then some above
    else match tie with
      | .up => some above
      | .toEven => if num / den % 2 = 0 then some below else some above

end Binary

/-- The shortest decimal that reads back as the number. Seventeen digits always do. -/
def Decimal.shortest (tie : Tie) (x : Binary) : Decimal :=
  if x.significand = 0 then ⟨0, 0⟩
  else
    match (List.range 17).findSome? fun n => x.onGrid tie (x.leading - Int.ofNat n) with
    | some d => d.strip 17
    | none => ⟨x.numerator (4 * x.significand) / x.denominator, 0⟩

end Agenda
