/-
# The standard passes

The registry everyone starts from: verification, the five transformations, and aliases for the usual
sequences of them.
-/
import BehaviorGraph.Pipeline.Registry
import BehaviorGraph.Pass.Verification
import BehaviorGraph.Pass.CastElimination
import BehaviorGraph.Pass.Inlining
import BehaviorGraph.Pass.ConstantFolding
import BehaviorGraph.Pass.Merging
import BehaviorGraph.Pass.DeadValues

namespace BehaviorGraph

/-- Verification as a pass that looks for problems. -/
def verification : Registered Context := .ofDiagnostic Verification.pass id

/-- The passes that transform a context, in the order in which they are usually run. -/
def transformations : List (Registered Context) :=
  [.ofPass CastElimination.pass, .ofPass Inlining.pass, .ofPass ConstantFolding.pass,
    .ofPass Merging.pass, .ofPass DeadValues.pass]

/-- The names of the transformations. -/
def transformationNames : List String := transformations.map fun pass => pass.info.name

/-- Every standard pass and alias (`default_passes`). -/
def standardRegistry : Except Failure (Registry Context) := do
  let registry ← (verification :: transformations).foldlM Registry.register {}
  let registry ← registry.addAlias "validate" [verification.info.name]
  let registry ← registry.addAlias "pre-opt" transformationNames
  registry.addAlias "all" ["validate", "pre-opt", "validate"]

end BehaviorGraph
