/-
# Plans

A plan is made of the passes to include, the passes to exclude and insertions `before:after`, each
of which makes sure that one pass runs behind another.  An insertion moves `after` to the place
right behind `before`, unless it already stands somewhere behind it.  **Insertions are carried out
one after the other**, and a later one may undo what an earlier one arranged.

Names have to be known before anything runs.  After every pass that is not merely diagnostic all
graphs are checked for consistency, and what is found ends the run.

A plan is made by `create_plan` and run by `execute_plan`.
-/
import BehaviorGraph.Pipeline.Registry
import BehaviorGraph.Check
import BehaviorGraph.Printer

namespace BehaviorGraph

/-- The passes to run, in order, and those of them to leave out. -/
structure Plan where
  passes : List String
  excluded : List String
deriving DecidableEq

namespace Plan

/-- Move the element at place `a` to the place `b` behind it. -/
def move (passes : List String) (a b : Nat) : List String :=
  match passes[a]? with
  | some pass => (passes.eraseIdx a).insertIdx b pass
  | none => passes

/-- Carry out one insertion, if both passes are in the plan and not excluded. -/
def insert? (plan : Plan) (before after : String) : Option Plan :=
  let runs (name : String) : Bool := !plan.excluded.contains name
  match plan.passes.idxOf? before, plan.passes.idxOf? after with
  | some b, some a =>
    if runs before && runs after then
      some (if a < b then { plan with passes := move plan.passes a b } else plan)
    else none
  | _, _ => none

end Plan

namespace Registry

variable {κ : Type}

/-- The passes a name stands for; a name that is no alias stands for itself. -/
def expand (registry : Registry κ) (name : String) : List String :=
  (registry.aliases.get? name).getD [name]

/-- A name has to be that of a pass (`check_known`). -/
def requirePass (registry : Registry κ) (name : String) : Except Failure Unit :=
  if registry.hasPass name then .ok ()
  else
    refuse ("Unknown pass: " ++ name
      ++ ". Run the compiler with --list-passes to view registered passes.")

/-- Carry out the insertions in order.  One that is not of the right form, or whose passes are not
both in the plan, is ignored with a warning. -/
def insertAll {σ : Type} (registry : Registry κ) (plan : Plan) : List String → Run Failure σ Plan
  | [] => return plan
  | insertion :: rest => do
    let ignored := "ignoring insertion `" ++ insertion ++ "': "
    match splitOnce ':' insertion with
    | none =>
      Run.log .warn (ignored ++ "expected `before:after'")
      registry.insertAll plan rest
    | some (before, after) =>
      Run.ofExcept (registry.requirePass before)
      Run.ofExcept (registry.requirePass after)
      match plan.insert? before after with
      | some plan => registry.insertAll plan rest
      | none =>
        Run.log .warn (ignored ++ "both passes must be in the plan")
        registry.insertAll plan rest

/-- **The plan for the included and excluded names and the insertions** (`create_plan`). -/
def plan {σ : Type} (registry : Registry κ) (included excluded insertions : List String) :
    Run Failure σ Plan := do
  let passes := included.flatMap registry.expand
  let excluded := excluded.flatMap registry.expand
  Run.ofExcept ((passes ++ excluded).forM registry.requirePass)
  registry.insertAll ⟨passes, excluded⟩ insertions

end Registry

/-! ## 1. Running a plan -/

/-- What is inconsistent in a context after a pass (`check_consistency`). -/
def inconsistencies (pass : String) (context : Context) : Batch :=
  context.definitions.flatMap fun d =>
    d.behavior.checkConsistency.errors.map fun error =>
      error.withNote ("found after pass `" ++ pass ++ "`")

/-- Fail if a pass left a graph inconsistent. -/
def requireConsistent {κ : Type} (view : κ → Context) (pass : String) : Run Failure κ Unit := do
  let state ← Run.state
  let errors := inconsistencies pass (view state)
  if errors.isEmpty then return ()
  Run.log .error (pass ++ ": " ++ toString errors.length ++ " consistency error(s)")
  Run.fail (.batch errors)

namespace Registry

variable {κ : Type}

/-- Run one pass of a plan.  Afterwards the context is printed if that is wanted, and the log says
that the pass is done; no clock is kept here, so a word stands for the time it took. -/
def runPass (registry : Registry κ) (view : κ → Context) (plan : Plan) (dump : Bool)
    (name : String) : Run Failure κ Unit := do
  if plan.excluded.contains name then
    Run.log .info (name ++ ": excluded")
  else
    match registry.pass? name with
    | none => return ()
    | some pass =>
      pass.run
      if !pass.diagnostic then requireConsistent view name
      if dump then
        let state ← Run.state
        Run.report (.printed (view state).print)
      Run.log .info (name ++ ": <time>")

/-- **Make a plan and run it** (`execute_plan`). -/
def execute (registry : Registry κ) (view : κ → Context)
    (included excluded insertions : List String) (dump : Bool) : Run Failure κ Unit := do
  let plan ← registry.plan included excluded insertions
  Run.each (registry.runPass view plan dump) plan.passes

end Registry

end BehaviorGraph
