import Agenda.Text.Blank
import Agenda.Value

/-!
# Counts in settings

Counts are given in decimal digits, with a plus sign in front or not, and have 64 bits.
-/

namespace Agenda.CommandLine

set_option autoImplicit false

def count? (cs : List Char) : Option Nat :=
  let digits := match cs with
    | '+' :: rest => rest
    | rest => rest
  if digits.isEmpty || !digits.all Char.isDigit then none
  else
    let n := Nat.ofDigitChars 10 digits 0
    if n ≤ Value.maxCount then some n else none

/-- The limit for plans that the environment sets. Blanks around it do not matter, and what is no count sets nothing. -/
def limitOfEnvironment (setting : Option String) : Option Nat :=
  setting.bind fun s => count? (Text.trimBlanks s.toList)

end Agenda.CommandLine
