import Agenda.CommandLine.Report

/-!
# The command line

Reads the files that the arguments name, waits as long as the run takes, and prints the report.
-/

namespace Agenda.CommandLine

set_option autoImplicit false

def readFile? (path : String) : IO (Option String) := do
  try
    let text ← IO.FS.readFile path
    return some text
  catch _ => return none

def readFiles (args : List String) : IO (List (String × Option String)) := do
  match Invocation.ofArguments args with
  | .error _ => return []
  | .ok i => (i.program :: i.state.toList).mapM fun path => do return (path, ← readFile? path)

end Agenda.CommandLine

open Agenda.CommandLine in
def main (args : List String) : IO UInt32 := do
  let environment ← IO.getEnv "GOLOG_PLAN_DEPTH_LIMIT"
  let files ← readFiles args
  let report := Agenda.CommandLine.report args environment fun path => (files.lookup path).join
  IO.sleep report.elapsed.toUInt32
  IO.print report.output
  if let some message := report.error then IO.eprintln ("Error: " ++ message)
  return report.exit.toUInt32
