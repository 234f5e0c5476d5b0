/-
# The command

The outermost layer: it hands its arguments to the compiler, together with a context without
definitions, and shows what comes back.  Printed text goes to the standard output, the log and
errors to the standard error.  Everything that is decided is decided in `Compiler.runCommand`.
-/
import BehaviorGraph.Compiler

namespace BehaviorGraph.Command

/-- The name the command goes by in its help text. -/
def name : String := "behavior-graph"

/-- What the arguments ask to be logged; for arguments that cannot be read, the usual. -/
def threshold (args : List String) : Threshold :=
  match Arguments.parse name args with
  | .ok arguments => arguments.logThreshold
  | .error _ => Arguments.logThreshold {}

/-- The text of a failure. -/
def failureText : Abort → String
  | .halt reason => reason.message
  | .error error => error.render?.getD error.message

/-- Run the command and show the outcome; the answer is the exit code. -/
def run (args : List String) : IO UInt32 := do
  let outcome := Compiler.runCommand name args {}
  IO.print (Report.printedText outcome.reports)
  for line in (Report.logLines (threshold args) outcome.reports).getD [] do
    IO.eprintln line
  match outcome.result with
  | .ok () => return 0
  | .error abort =>
    IO.eprintln (failureText abort)
    return 1

end BehaviorGraph.Command

/-- The entry point of the program. -/
def main (args : List String) : IO UInt32 := BehaviorGraph.Command.run args
