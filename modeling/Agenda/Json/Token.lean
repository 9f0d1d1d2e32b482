import Agenda.Json.Basic

/-!
# Tokens

The characters of a text are grouped into tokens one character at a time. Numerals and the three constants are words; a
word ends where a character follows that no word holds.
-/

namespace Agenda.Json

set_option autoImplicit false

/-- A token. A text whose escapes do not pair up has no content. -/
inductive Token where
  | openArray
  | closeArray
  | openObject
  | closeObject
  | comma
  | colon
  | text (content : Option String)
  | word (spelling : List Char)

/-- Where in a text the lexer stands. Collected parts are kept last first. A text is collected as 16-bit units
where it is escaped and as code points elsewhere. -/
inductive Lexer.Mode where
  | between
  | word (spelling : List Char)
  | text (units : List Nat)
  | escape (units : List Nat)
  | code (units : List Nat) (digits : Nat) (value : Nat)

structure Lexer where
  tokens : List Token
  mode : Lexer.Mode

def isSpace (c : Char) : Bool := c = ' ' ∨ c = '\n' ∨ c = '\t' ∨ c = '\r'

def isWordChar (c : Char) : Bool := c.isAlphanum ∨ c = '-' ∨ c = '+' ∨ c = '.'

def hexValue (c : Char) : Option Nat :=
  if c.isDigit then some (c.toNat - '0'.toNat)
  else if 'a' ≤ c ∧ c ≤ 'f' then some (c.toNat - 'a'.toNat + 10)
  else if 'A' ≤ c ∧ c ≤ 'F' then some (c.toNat - 'A'.toNat + 10)
  else none

def escapeValue (c : Char) : Option Char :=
  match c with
  | '"' => some '"'
  | '\\' => some '\\'
  | '/' => some '/'
  | 'b' => some '\x08'
  | 'f' => some '\x0c'
  | 'n' => some '\n'
  | 'r' => some '\r'
  | 't' => some '\t'
  | _ => none

def isHighSurrogate (n : Nat) : Bool := 0xd800 ≤ n ∧ n < 0xdc00

def isLowSurrogate (n : Nat) : Bool := 0xdc00 ≤ n ∧ n < 0xe000

/-- Joins surrogate pairs; a surrogate without its partner leaves the text without content. -/
def joinUnits : List Nat → Option (List Char)
  | [] => some []
  | high :: low :: rest =>
    if isHighSurrogate high then
      if isLowSurrogate low then
        (joinUnits rest).map (Char.ofNat (0x10000 + (high - 0xd800) * 0x400 + (low - 0xdc00)) :: ·)
      else none
    else if isLowSurrogate high then none
    else (joinUnits (low :: rest)).map (Char.ofNat high :: ·)
  | [unit] => if isHighSurrogate unit || isLowSurrogate unit then none else some [Char.ofNat unit]

namespace Lexer

def startToken (tokens : List Token) (c : Char) : Option Lexer :=
  if isSpace c then some ⟨tokens, .between⟩
  else if c = '"' then some ⟨tokens, .text []⟩
  else if isWordChar c then some ⟨tokens, .word [c]⟩
  else if c = '[' then some ⟨.openArray :: tokens, .between⟩
  else if c = ']' then some ⟨.closeArray :: tokens, .between⟩
  else if c = '\x7b' then some ⟨.openObject :: tokens, .between⟩
  else if c = '\x7d' then some ⟨.closeObject :: tokens, .between⟩
  else if c = ',' then some ⟨.comma :: tokens, .between⟩
  else if c = ':' then some ⟨.colon :: tokens, .between⟩
  else none

def step (l : Lexer) (c : Char) : Option Lexer :=
  match l.mode with
  | .between => startToken l.tokens c
  | .word spelling =>
    if isWordChar c then some ⟨l.tokens, .word (c :: spelling)⟩
    else startToken (.word spelling.reverse :: l.tokens) c
  | .text units =>
    if c = '"' then some ⟨.text ((joinUnits units.reverse).map String.ofList) :: l.tokens, .between⟩
    else if c = '\\' then some ⟨l.tokens, .escape units⟩
    else if c.toNat < 0x20 then none
    else some ⟨l.tokens, .text (c.toNat :: units)⟩
  | .escape units =>
    if c = 'u' then some ⟨l.tokens, .code units 0 0⟩
    else (escapeValue c).map fun e => ⟨l.tokens, .text (e.toNat :: units)⟩
  | .code units digits value =>
    (hexValue c).map fun h =>
      if digits = 3 then ⟨l.tokens, .text ((value * 16 + h) :: units)⟩
      else ⟨l.tokens, .code units (digits + 1) (value * 16 + h)⟩

def finish (l : Lexer) : Option (List Token) :=
  match l.mode with
  | .between => some l.tokens.reverse
  | .word spelling => some (.word spelling.reverse :: l.tokens).reverse
  | _ => none

end Lexer

def tokens (cs : List Char) : Option (List Token) :=
  (cs.foldlM Lexer.step ⟨[], .between⟩).bind Lexer.finish

end Agenda.Json
