import Agenda.Json.Numeral
import Agenda.Json.Token

/-!
# Reading documents

Tokens are read one at a time against the containers that are still open. Nesting is not limited here: `Json.sound` says
which documents are too deep to be used.
-/

namespace Agenda.Json

set_option autoImplicit false

/-- A container that is still open. Its parts are kept last first. An object with a name that has no content is
not readable as a whole. -/
inductive Open where
  | array (items : List Json)
  | object (members : List (String × Json)) (readable : Bool)
  | member (members : List (String × Json)) (readable : Bool) (name : Option String)

inductive Phase where
  | value
  /-- The first part of the innermost container, or its end. -/
  | first
  | name
  | colon
  /-- A comma or the end of the innermost container. -/
  | next
  | finished (document : Json)

structure Parser where
  stack : List Open
  phase : Phase

def wordValue (spelling : List Char) : Option Json :=
  if spelling = ['n', 'u', 'l', 'l'] then some .null
  else if spelling = ['t', 'r', 'u', 'e'] then some (.bool true)
  else if spelling = ['f', 'a', 'l', 's', 'e'] then some (.bool false)
  else (Numeral.parse spelling).map fun numeral =>
    match numeral.value with
    | some n => .number n
    | none => .unreadable

namespace Parser

def place (j : Json) : List Open → Option Parser
  | [] => some ⟨[], .finished j⟩
  | .array items :: rest => some ⟨.array (j :: items) :: rest, .next⟩
  | .member members readable (some name) :: rest => some ⟨.object ((name, j) :: members) readable :: rest, .next⟩
  | .member members _ none :: rest => some ⟨.object members false :: rest, .next⟩
  | .object _ _ :: _ => none

def close (token : Token) : List Open → Option Parser
  | .array items :: rest =>
    match token with
    | .closeArray => place (.array items.reverse) rest
    | _ => none
  | .object members readable :: rest =>
    match token with
    | .closeObject => place (if readable then .object members.reverse else .unreadable) rest
    | _ => none
  | _ => none

def startValue (token : Token) (stack : List Open) : Option Parser :=
  match token with
  | .openArray => some ⟨.array [] :: stack, .first⟩
  | .openObject => some ⟨.object [] true :: stack, .first⟩
  | .text (some s) => place (.string s) stack
  | .text none => place .unreadable stack
  | .word spelling => (wordValue spelling).bind fun j => place j stack
  | _ => none

def startMember (token : Token) : List Open → Option Parser
  | .object members readable :: rest =>
    match token with
    | .text name => some ⟨.member members readable name :: rest, .colon⟩
    | _ => none
  | _ => none

def step (p : Parser) (token : Token) : Option Parser :=
  match p.phase with
  | .value => startValue token p.stack
  | .first =>
    match token, p.stack with
    | .closeArray, stack => close token stack
    | .closeObject, stack => close token stack
    | _, .object _ _ :: _ => startMember token p.stack
    | _, stack => startValue token stack
  | .name => startMember token p.stack
  | .colon =>
    match token with
    | .colon => some ⟨p.stack, .value⟩
    | _ => none
  | .next =>
    match token, p.stack with
    | .comma, .array _ :: _ => some ⟨p.stack, .value⟩
    | .comma, .object _ _ :: _ => some ⟨p.stack, .name⟩
    | _, stack => close token stack
  | .finished _ => none

def finish (p : Parser) : Option Json :=
  match p.phase with
  | .finished j => some j
  | _ => none

end Parser

/-- Reads a document; `none` if the text is not spelled as one. -/
def parse (cs : List Char) : Option Json :=
  (tokens cs).bind fun ts => (ts.foldlM Parser.step ⟨[], .value⟩).bind Parser.finish

/-- Reads a document all of which can be used. -/
def parseSound (cs : List Char) : Option Json :=
  (parse cs).filter (sound 0)

end Agenda.Json
