import Agenda.Decimal.Shortest

/-!
# Layouts of decimal numbers

A layout says how the digits of a shortest decimal are set out: over which exponents the point is placed among the
digits, whether an integral number keeps a point, and which of two equally near decimals is taken.
-/

namespace Agenda.Decimal

set_option autoImplicit false

structure Layout where
  tie : Tie
  /-- Whether a number with this exponent of its leading digit is written without an exponent. -/
  positional : Int → Bool
  /-- Whether an integral number ends in a point and a zero. -/
  keepsPoint : Bool

def digits (n : Nat) : List Char := Nat.toDigits 10 n

def leading (d : Decimal) : Int := d.exponent + (digits d.coefficient).length - 1

/-- The decimal with the point placed among its digits, zeros being added where needed. -/
def positional (keepsPoint : Bool) (d : Decimal) : List Char :=
  let ds := digits d.coefficient
  if 0 ≤ d.exponent then
    ds ++ List.replicate d.exponent.toNat '0' ++ (if keepsPoint then ['.', '0'] else [])
  else
    let places := (-d.exponent).toNat
    let padded := List.replicate (places + 1 - ds.length) '0' ++ ds
    padded.take (padded.length - places) ++ '.' :: padded.drop (padded.length - places)

/-- The decimal with one digit before the point and a signed exponent. -/
def scientific (d : Decimal) : List Char :=
  let exponent := d.leading
  let mantissa := match digits d.coefficient with
    | [] => []
    | [c] => [c]
    | c :: rest => c :: '.' :: rest
  mantissa ++ 'e' :: (if exponent < 0 then '-' else '+') :: digits exponent.natAbs

def Layout.magnitude (layout : Layout) (x : Binary) : List Char :=
  let d := shortest layout.tie x
  if layout.positional d.leading then d.positional layout.keepsPoint else d.scientific

def Layout.signed (layout : Layout) (negative : Bool) (x : Binary) : List Char :=
  if negative then '-' :: layout.magnitude x else layout.magnitude x

end Agenda.Decimal
