/-!
# Floating-point numbers by their parts

A finite floating-point number is a sign and a magnitude `significand · 2 ^ exponent`. Operations that have an exact
result are computed on these parts.
-/

namespace Agenda

set_option autoImplicit false

/-- The magnitude `significand · 2 ^ exponent` of a finite number. -/
structure Binary where
  significand : Nat
  exponent : Int
deriving Repr, DecidableEq

def Binary.leadingBit : Nat := 1 <<< 52

inductive Parts where
  | nan
  | infinite (negative : Bool)
  | finite (negative : Bool) (magnitude : Binary)
deriving Repr, DecidableEq

def Parts.ofFloat (x : Float) : Parts :=
  let bits : Nat := x.toBits.toNat
  let negative := bits >>> 63 == 1
  let field : Nat := (bits >>> 52) % 2048
  let fraction : Nat := bits % Binary.leadingBit
  if field = 2047 then
    if fraction = 0 then .infinite negative else .nan
  else if field = 0 then .finite negative ⟨fraction, -1074⟩
  else .finite negative ⟨Binary.leadingBit + fraction, (field : Int) - 1075⟩

namespace Binary

def toNat? (x : Binary) : Option Nat :=
  if 0 ≤ x.exponent then some (x.significand <<< x.exponent.toNat)
  else
    let unit := 1 <<< (-x.exponent).toNat
    if x.significand % unit = 0 then some (x.significand / unit) else none

def alignedTo (x : Binary) (exponent : Int) : Nat :=
  x.significand <<< (x.exponent - exponent).toNat

/-- What is left of the first magnitude after taking the second away as often as possible. -/
def remainder (x y : Binary) : Binary :=
  let exponent := min x.exponent y.exponent
  ⟨x.alignedTo exponent % y.alignedTo exponent, exponent⟩

/-- The number with the given sign and magnitude, which must have one. -/
def toFloat (negative : Bool) (x : Binary) : Float :=
  let sign : Nat := if negative then 1 <<< 63 else 0
  if x.significand = 0 then Float.ofBits sign.toUInt64
  else
    let exponent := max (x.exponent + x.significand.log2 - 52) (-1074)
    let shift := exponent - x.exponent
    let significand := (x.significand <<< (-shift).toNat) >>> shift.toNat
    if significand < leadingBit then Float.ofBits (sign + significand).toUInt64
    else Float.ofBits (sign + (exponent + 1075).toNat * leadingBit + (significand - leadingBit)).toUInt64

end Binary

/-- The remainder of a division that is rounded toward zero. It has the sign of the dividend. -/
def floatRemainder (x y : Float) : Float :=
  match Parts.ofFloat x, Parts.ofFloat y with
  | .finite negative magnitude, .finite _ divisor =>
    if divisor.significand = 0 then 0 / 0 else (magnitude.remainder divisor).toFloat negative
  | .finite _ _, .infinite _ => x
  | _, _ => 0 / 0

end Agenda
