/-
# Passes and aliases by name

A registry knows passes by name, and aliases, which are names for sequences of passes.  Both are
registered once only.  An alias is expanded when it is added, so it can refer to earlier aliases and
always stands for names of passes.

The state a registered pass works on is a parameter.  It has a context inside and may have more.

A registry is a `PassManager`.  Passes are registered by `register_pass` and `register_diagnostic`,
aliases by `add_alias`.
-/
import BehaviorGraph.Traversal.Visitor

namespace BehaviorGraph

/-- Why running passes ended early. -/
inductive Failure where
  | batch (errors : Batch)
  | halt (reason : Halt)
deriving DecidableEq

/-- An error of one pass is a batch of one. -/
def Failure.ofAbort : Abort → Failure
  | .error error => .batch [error]
  | .halt reason => .halt reason

/-- Refuse with one error. -/
def refuse {α : Type} (message : String) : Except Failure α := .error (.batch [Error.other message])

/-- A pass, ready to run. -/
structure Registered (κ : Type) where
  info : PassInfo
  /-- Whether the pass only looks for problems. -/
  diagnostic : Bool
  run : Run Failure κ Unit

namespace Registered

variable {κ σ : Type}

/-- A pass that transforms a context (`register_pass`). -/
def ofPass (pass : Pass σ) : Registered Context where
  info := pass.info
  diagnostic := false
  run := do
    let _ ← Run.mapFailure Failure.ofAbort pass.run
    return ()

/-- A pass that looks for problems (`register_diagnostic`).  **Errors make it fail, as one batch**;
without errors the warnings are logged. -/
def ofDiagnostic (pass : Pass σ) (diagnostics : σ → Diagnostics) : Registered Context where
  info := pass.info
  diagnostic := true
  run := do
    let memory ← Run.mapFailure Failure.ofAbort pass.run
    let found := diagnostics memory
    if found.hasErrors then Run.fail (.batch found.errors)
    Run.each (fun warning => Run.report (.entry .warn warning.render?)) found.warnings

/-- The pass on a part of a larger state. -/
def within {τ : Type} (view : τ → κ) (store : κ → τ → τ) (registered : Registered κ) :
    Registered τ :=
  { registered with run := Run.within view store id registered.run }

end Registered

/-- The passes and aliases that are known (`PassManager`). -/
structure Registry (κ : Type) where
  passes : List (Registered κ) := []
  /-- The passes each alias stands for. -/
  aliases : Table String (List String) := Table.empty

namespace Registry

variable {κ : Type}

def pass? (registry : Registry κ) (name : String) : Option (Registered κ) :=
  registry.passes.find? fun pass => decide (pass.info.name = name)

def hasPass (registry : Registry κ) (name : String) : Bool := (registry.pass? name).isSome

/-- Add a pass. -/
def register (registry : Registry κ) (pass : Registered κ) : Except Failure (Registry κ) :=
  if registry.hasPass pass.info.name then
    refuse ("pass `" ++ pass.info.name ++ "' is registered twice")
  else .ok { registry with passes := registry.passes ++ [pass] }

/-- The passes an entry of an alias stands for. -/
def expandEntry (registry : Registry κ) (name entry : String) : Except Failure (List String) :=
  match registry.aliases.get? entry with
  | some passes => .ok passes
  | none =>
    if registry.hasPass entry then .ok [entry]
    else refuse ("alias `" ++ name ++ "' refers to unknown pass or alias: " ++ entry)

/-- Add an alias for a sequence of passes and earlier aliases (`add_alias`). -/
def addAlias (registry : Registry κ) (name : String) (entries : List String) :
    Except Failure (Registry κ) :=
  if registry.aliases.contains name then refuse ("alias `" ++ name ++ "' is defined twice")
  else do
    let passes ← entries.mapM (registry.expandEntry name)
    return { registry with aliases := registry.aliases.insert name passes.flatten }

/-! ## 1. Help -/

/-- Help for a pass, or the passes an alias stands for (`specific_help`). -/
def help? (registry : Registry κ) (name : String) : Option String :=
  match registry.pass? name with
  | some pass => some pass.info.help
  | none => (registry.aliases.get? name).map fun passes =>
      "`" ++ name ++ "' is an alias for pass pipeline:"
        ++ String.join (passes.map fun pass => "\n- " ++ pass)

/-- Help for everything, sorted by name (`complete_help`). -/
def fullHelp (registry : Registry κ) : String :=
  let passNames := sortTexts (registry.passes.map fun pass => pass.info.name)
  let passes := (passNames.filterMap registry.pass?).map fun pass => pass.info.help
  let aliasNames := sortTexts (registry.aliases.entries.map Prod.fst)
  let aliases := aliasNames.filterMap fun name =>
    (registry.aliases.get? name).map fun passes =>
      "- " ++ name ++ ": " ++ String.intercalate ", " passes
  "Passes:\n" ++ String.intercalate "\n" passes ++ "\n\nAliases:\n"
    ++ String.intercalate "\n" aliases ++ "\n"

end Registry

end BehaviorGraph
