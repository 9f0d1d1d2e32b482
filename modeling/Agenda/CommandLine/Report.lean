import Agenda.CommandLine.Arguments
import Agenda.Domain.Standard
import Agenda.Execution.Run
import Agenda.Wire.Program

/-!
# Reports

What the command line prints, and how it exits.
-/

namespace Agenda.CommandLine

set_option autoImplicit false

/-- The output of the program and its exit code; if that is one, there is an error message. -/
structure Report where
  exit : Nat
  output : String := ""
  error : Option String := none
  /-- How many milliseconds the run took. -/
  elapsed : Nat := 0

def defaultLatency : Nat := 100

namespace Report

def ofHalt : Halt → Report
  | .usage => { exit := 2 }
  | .version => { exit := 0, output := "golog 0.1.0\n" }

def failure (message : String) : Report := { exit := 1, error := some message }

end Report

namespace Invocation

def render (i : Invocation) (j : Json) : String := (if i.pretty then j.pretty else j.compact) ++ "\n"

def setting (i : Invocation) (environment : Option String) : Setting where
  domain := .delivery (i.latency.getD defaultLatency) .delivery
  planLimit := i.planLimit.or (limitOfEnvironment environment)

def load (i : Invocation) (file : String → Option String) : Except String (Program × State) := do
  let text ← get ("read program " ++ i.program) (file i.program)
  let program ← get ("parse program " ++ i.program) (Program.parse text.toList)
  match i.state with
  | none => return (program, {})
  | some path =>
    let text ← get ("read state " ++ path) (file path)
    let state ← get ("parse state " ++ path) (State.parse text.toList)
    return (program, state)
where
  get {α : Type} (message : String) : Option α → Except String α
    | some a => .ok a
    | none => .error message

/-- The report on a run. A failed run is described with the names in alphabetical order. -/
def reportRun (i : Invocation) (r : Run) : Report :=
  let history := Json.array (r.history.map ActionRecord.toJson)
  match r.result with
  | .ok state =>
    { exit := 0
      output := i.render (.object [("state", state.toJson), ("history", history)])
      elapsed := r.world.clock }
  | .error f =>
    let error := Json.object [("kind", .string f.failure.kind), ("message", .string f.failure.message)]
    let document := Json.object
      [("error", error), ("state", f.state.toJson), ("history", history), ("program", f.program.toJson)]
    { exit := 1
      output := i.render document.sorted
      error := some ("run failed (" ++ f.failure.kind ++ "): " ++ f.failure.message)
      elapsed := r.world.clock }

def reportPlan (i : Invocation) : Except Failure (Option Plan) → Report
  | .error e => .failure e.message
  | .ok none => .failure "no plan completes the program"
  | .ok (some plan) =>
    { exit := 0
      output := i.render (.array (plan.trace.map fun bound => bound.record.toJson)) }

def perform (i : Invocation) (environment : Option String) (file : String → Option String) : Report :=
  match i.load file with
  | .error message => .failure message
  | .ok (program, state) =>
    match i.command with
    | .run => i.reportRun (program.run (i.setting environment) state)
    | .plan => i.reportPlan (program.planValid (i.setting environment) state)

end Invocation

def report (args : List String) (environment : Option String) (file : String → Option String) : Report :=
  match Invocation.ofArguments args with
  | .error halt => .ofHalt halt
  | .ok i => i.perform environment file

end Agenda.CommandLine
