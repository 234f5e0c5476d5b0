/-
# The workbench

A graph is usually made on its own and becomes the behaviour of a definition later.  A workbench
holds what is at hand in between: source files and spans, loose graphs by handle, the context with
the recorder's memory, and a registry of passes that work on the two.

**A graph is in one place.**  Making it a behaviour takes it from its handle, and the behaviour it
replaces goes under a handle in turn.
-/
import BehaviorGraph.Traversal.Script
import BehaviorGraph.Pipeline.Standard
import BehaviorGraph.Pipeline.Plan
import BehaviorGraph.Printer

namespace BehaviorGraph

/-! ## 1. State and places -/

/-- Everything at hand. -/
structure Workbench where
  files : List SourceFile := []
  positions : List Span := []
  /-- The graphs that belong to no definition, by handle. -/
  loose : Table String Graph := Table.empty
  /-- The context, and what the recorder remembers. -/
  bench : PassState Recording := ⟨{}, {}⟩
  registry : Registry (PassState Recording) := {}

/-- Where a graph is. -/
inductive Place where
  | loose (handle : String)
  /-- The behaviour of the definition at a position of the context. -/
  | behavior (index : Nat)
deriving DecidableEq

/-- The name of a place: the handle, or the position behind a number sign. -/
def Place.name : Place → String
  | .loose handle => handle
  | .behavior index => "#" ++ toString index

namespace Workbench

def context (w : Workbench) : Context := w.bench.context

def setContext (w : Workbench) (context : Context) : Workbench :=
  { w with bench := { w.bench with context := context } }

/-- Give the recorder a script and forget what it noted. -/
def setScript (w : Workbench) (script : Script) : Workbench :=
  { w with bench := { w.bench with memory := { script := script } } }

/-- Forget what the recorder noted. -/
def clearNotes (w : Workbench) : Workbench := w.setScript w.bench.memory.script

def definition? (w : Workbench) (index : Nat) : Option Definition := w.context.definitions[index]?

/-- The graph at a place. -/
def graph? (w : Workbench) : Place → Option Graph
  | .loose handle => w.loose.get? handle
  | .behavior index => (w.definition? index).map fun d => d.behavior

/-- Put a graph where it belongs, over what is there. -/
def store (w : Workbench) (g : Graph) : Place → Workbench
  | .loose handle => { w with loose := w.loose.insert handle g }
  | .behavior index =>
    let definitions := w.context.definitions.modify index fun d => { d with behavior := g }
    w.setContext { w.context with definitions := definitions }

/-! ## 2. Moving graphs -/

/-- Make a loose graph the behaviour of a new definition behind the others. -/
def define? (w : Workbench) (handle : String) (make : Graph → Definition) : Option Workbench := do
  let g ← w.loose.get? handle
  let w := { w with loose := w.loose.erase handle }
  return w.setContext { w.context with definitions := w.context.definitions ++ [make g] }

/-- Make a loose graph the behaviour of a definition, and keep the former one under a handle. -/
def replaceBehavior? (w : Workbench) (index : Nat) (handle former : String) :
    Option (Definition × Workbench) := do
  let d ← w.definition? index
  let g ← w.loose.get? handle
  let changed := d.withBehavior g
  let w := { w with loose := (w.loose.erase handle).insert former d.behavior }
  return (changed, w.store changed.behavior (.behavior index))

/-! ## 3. What changed -/

/-- Every place that has a graph. -/
def places (w : Workbench) : List Place :=
  w.loose.entries.map (fun entry => .loose entry.1)
    ++ (List.range w.context.definitions.length).map .behavior

/-- The nodes of the graph at a place, a line for each. -/
def lines (w : Workbench) (place : Place) : List String :=
  ((w.graph? place).map Graph.summary).getD []

/-- The lines that differ from those in the same positions of a former list. -/
def changedLines (former current : List String) : List String :=
  current.zipIdx.filterMap fun (line, i) => if former[i]? = some line then none else some line

/-- **The nodes that are new or changed**, for each place that has some. -/
def changes (former current : Workbench) : List (Place × List String) :=
  (current.places.map fun place => (place, changedLines (former.lines place) (current.lines place)))
    |>.filter fun entry => !entry.2.isEmpty

/-! ## 4. Passes -/

/-- A pass on contexts, which leaves the recorder's memory alone. -/
def onContext (pass : Registered Context) : Registered (PassState Recording) :=
  pass.within PassState.context fun context p => { p with context := context }

/-- The recorder as a pass that follows the script it finds in its memory. -/
def recorder : Registered (PassState Recording) where
  info := Recording.info
  diagnostic := false
  run := Run.mapFailure Failure.ofAbort (Recording.visit .node .creation .listed)

/-- The standard transformation or recorder of a name. -/
def pass? (name : String) : Option (Registered (PassState Recording)) :=
  (recorder :: transformations.map onContext).find? fun pass => decide (pass.info.name = name)

/-- The workbench with the standard passes and aliases instead of those it has. -/
def withStandardPasses (w : Workbench) : Except Failure Workbench := do
  let registry ← standardRegistry
  return { w with registry := ⟨registry.passes.map onContext, registry.aliases⟩ }

end Workbench

end BehaviorGraph
