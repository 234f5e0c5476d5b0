/-
# The compiler

Reads a command line and runs the standard passes it asks for on a context.  Logging is set up by
whoever embeds the compiler; that it was set up already is all there is to say about it here.
-/
import BehaviorGraph.CommandLine
import BehaviorGraph.Pipeline.Plan
import BehaviorGraph.Pipeline.Standard

namespace BehaviorGraph

/-- The failure of a plan as that of the compiler: a batch becomes one error. -/
def Abort.ofFailure : Failure → Abort
  | .halt reason => .halt reason
  | .batch errors =>
    match Batch.toError? errors with
    | some single => .error single
    | none => .halt .overflow

namespace Compiler

/-- Run what was asked for (`run`). -/
def run (arguments : Arguments) : Run Abort Context Unit := do
  let registry ← Run.ofExcept (standardRegistry.mapError Abort.ofFailure)
  if arguments.listPasses then
    Run.report (.printed (registry.fullHelp ++ "\n"))
  else
    Run.update fun context =>
      { context with options := context.options ++ arguments.options }
    let context ← Run.state
    Run.log .debug ("running [" ++ String.intercalate ", " arguments.selected ++ "] on "
      ++ toString context.definitions.length ++ " definition(s)")
    Run.mapFailure Abort.ofFailure
      (registry.execute id arguments.selected arguments.disabled arguments.insertions
        arguments.dump)

/-- **Read a command line and run what it asks for** (`run_compiler`). -/
def runCommand (command : String) (args : List String) : Run Abort Context Unit := do
  let arguments ← Run.ofExcept ((Arguments.parse command args).mapError Abort.error)
  Run.log .debug "logger already initialized"
  run arguments

end Compiler

end BehaviorGraph
