import Agenda.Text.Shown

/-!
# Quoted text

A text value is shown between double quotes. The quote, the backslash and the four common control characters have an
escape of two characters; every other character that is not shown as itself is written by its code point.
-/

namespace Agenda.Text

set_option autoImplicit false

/-- The code point in lowercase hexadecimal, between braces, without leading zeros. -/
def codeEscape (c : Char) : List Char :=
  ['\\', 'u', '\x7b'] ++ Nat.toDigits 16 c.toNat ++ ['\x7d']

def quoteChar (c : Char) : List Char :=
  if c = '"' then ['\\', '"']
  else if c = '\\' then ['\\', '\\']
  else if c = '\t' then ['\\', 't']
  else if c = '\n' then ['\\', 'n']
  else if c = '\r' then ['\\', 'r']
  else if c = '\x00' then ['\\', '0']
  else if isShown c then [c]
  else codeEscape c

def quote (s : String) : String :=
  String.ofList ('"' :: s.toList.flatMap quoteChar ++ ['"'])

end Agenda.Text
