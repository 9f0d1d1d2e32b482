import Agenda.CommandLine.Count

/-!
# Arguments

The arguments name a command and the file of a program. Options may stand before the command or after it; one that
stands in both places counts where it stands after. Within one of the two places no option may be repeated.
-/

namespace Agenda.CommandLine

set_option autoImplicit false

inductive Command where
  | run
  | plan
deriving DecidableEq, Repr

def Command.ofName? : String → Option Command
  | "run" => some .run
  | "plan" => some .plan
  | _ => none

inductive Halt where
  | usage
  | version
deriving DecidableEq, Repr

/-- The options of one place, before the command or after it. -/
structure Options where
  planLimit : Option Nat := none
  latency : Option Nat := none
  pretty : Bool := false
  program : Option String := none
  state : Option String := none

structure Invocation where
  command : Command
  program : String
  state : Option String
  planLimit : Option Nat
  latency : Option Nat
  pretty : Bool

inductive Argument where
  | plain (text : String)
  | long (name : String) (value : Option String)
  | short (letters : List Char)
  /-- All that follows is plain. -/
  | separator

def Argument.ofString (s : String) : Argument :=
  match s.toList with
  | ['-', '-'] => .separator
  | '-' :: '-' :: rest =>
    match rest.dropWhile (· ≠ '=') with
    | [] => .long (String.ofList rest) none
    | _ :: value => .long (String.ofList (rest.takeWhile (· ≠ '='))) (some (String.ofList value))
  | ['-'] => .plain s
  | '-' :: rest => .short rest
  | _ => .plain s

namespace Options

def once {α : Type} (old : Option α) (new : Option α) : Except Halt (Option α) :=
  match old, new with
  | none, some a => .ok (some a)
  | _, _ => .error .usage

def file? (s : String) : Option String := if s = "" then none else some s

/-- Sets an option that has a value. The file of the state is named after the command only. -/
def put (o : Options) (afterCommand : Bool) (name value : String) : Except Halt Options :=
  match name with
  | "plan-depth-limit" => return { o with planLimit := ← once o.planLimit (count? value.toList) }
  | "latency-ms" => return { o with latency := ← once o.latency (count? value.toList) }
  | "state" => if afterCommand then return { o with state := ← once o.state (file? value) } else throw .usage
  | _ => throw .usage

def putPretty (o : Options) : Except Halt Options :=
  if o.pretty then .error .usage else .ok { o with pretty := true }

def putProgram (o : Options) (path : String) : Except Halt Options := do
  return { o with program := ← once o.program (file? path) }

end Options

def readPlain (o : Options) : List String → Except Halt Options
  | [] => .ok o
  | path :: rest => do readPlain (← o.putProgram path) rest

def readInner (o : Options) : List String → Except Halt Options
  | [] => .ok o
  | arg :: rest => do
    match Argument.ofString arg, rest with
    | .plain path, rest => readInner (← o.putProgram path) rest
    | .separator, rest => readPlain o rest
    | .short _, _ => throw .usage
    | .long "pretty" none, rest => readInner (← o.putPretty) rest
    | .long name (some value), rest => readInner (← o.put true name value) rest
    | .long _ none, [] => throw .usage
    | .long name none, next :: rest =>
      match Argument.ofString next with
      | .plain value => readInner (← o.put true name value) rest
      | _ => throw .usage

def Invocation.ofOptions (command : Command) (before after : Options) : Except Halt Invocation :=
  match after.program with
  | none => .error .usage
  | some program => .ok {
      command
      program
      state := after.state
      planLimit := after.planLimit.or before.planLimit
      latency := after.latency.or before.latency
      pretty := after.pretty || before.pretty }

def read (o : Options) : List String → Except Halt Invocation
  | [] => .error .usage
  | arg :: rest => do
    match Argument.ofString arg, rest with
    | .plain name, rest =>
      match Command.ofName? name with
      | some command => Invocation.ofOptions command o (← readInner {} rest)
      | none => throw .usage
    | .separator, _ => throw .usage
    | .short ('V' :: _), _ => throw .version
    | .short _, _ => throw .usage
    | .long "version" none, _ => throw .version
    | .long "pretty" none, rest => read (← o.putPretty) rest
    | .long name (some value), rest => read (← o.put false name value) rest
    | .long _ none, [] => throw .usage
    | .long name none, next :: rest =>
      match Argument.ofString next with
      | .plain value => read (← o.put false name value) rest
      | _ => throw .usage

def Invocation.ofArguments (args : List String) : Except Halt Invocation := read {} args

end Agenda.CommandLine
