/-
# Visitors

A visitor goes through the definitions of a context and, in each, through the nodes that are members
when it starts.  What it does is given by hooks.  A node is offered to the hook of its kind, then to
the hooks of its families, from narrow to wide, and last to the hook for all nodes; **the first hook
the visitor has decides**, and its action is performed before the next node is looked at.

A visitor keeps a memory of its own type throughout.  While it visits a definition it sees the
others as they are then, but can change only the one it visits.

A pass is a `Visitor` with a name (`Named`) and a way to make one from a context
(`ConstructVisitor`).  It goes through the definitions by `apply_update`, through each by
`traverse_definition` and through its nodes by `traverse_graph`.
-/
import BehaviorGraph.Traversal.Rule
import BehaviorGraph.Traversal.Options
import BehaviorGraph.Order.Dataflow
import BehaviorGraph.Order.Calls

namespace BehaviorGraph

/-! ## 1. Hooks -/

/-- A place where a visitor can act on a node. -/
inductive Hook where
  | kind (kind : Kind)
  | terminal
  | blockEnd
  | control
  | unique
  | cast
  | value
  | sideEffect
  | dependency
  | node
deriving DecidableEq

/-- The hooks a node of a kind is offered to, in order. -/
def Kind.hooks (kind : Kind) : List Hook :=
  match kind with
  | .start | .blockStart | .branch | .merge => [.kind kind, .control, .node]
  | .branchEnd => [.kind kind, .blockEnd, .control, .node]
  | .ret | .instrEnd | .procEnd => [.kind kind, .terminal, .control, .node]
  | .const | .param | .field => [.kind kind, .unique, .dependency, .node]
  | .zeroExtend | .signExtend | .truncate | .typeCast => [.kind kind, .cast, .dependency, .node]
  | .builtInCall | .funcCall | .select | .slice | .binding | .readReg | .readRegFile | .readMem =>
    [.kind kind, .value, .dependency, .node]
  | .writeReg | .writeRegFile | .writeMem => [.kind kind, .sideEffect, .dependency, .node]

/-- In what order to go through the nodes of a graph. -/
inductive NodeOrder where
  /-- As they were created. -/
  | creation
  /-- Each behind the nodes it reads. -/
  | dataflow
deriving DecidableEq

/-! ## 2. Visitors -/

/-- A definition under visit and the visitor's memory. -/
structure VisitState (σ : Type) where
  memory : σ
  definition : Definition

/-- A step of a visit. -/
abbrev Visiting (σ α : Type) := Run Abort (VisitState σ) α

namespace Visiting

variable {σ α : Type}

/-- Work on the graph of the definition. -/
def onGraph (m : Run Abort Graph α) : Visiting σ α :=
  Run.within (fun v => v.definition.behavior)
    (fun g v => { v with definition := { v.definition with behavior := g } }) id m

/-- Work on the graph of the definition with an operation of graphs. -/
def edit (m : Edit α) : Visiting σ α := onGraph (editing m)

/-- The graph of the definition. -/
def graph : Visiting σ Graph := Run.read fun v => v.definition.behavior

/-- Change the memory. -/
def remember (f : σ → σ) : Visiting σ Unit := Run.update fun v => { v with memory := f v.memory }

end Visiting

/-- What a visitor does: before and after the nodes of a definition, and at each node.  Every step
is told the other definitions. -/
structure Visitor (σ : Type) where
  callOrder : CallOrder := .listed
  nodeOrder : NodeOrder := .creation
  /-- A reason not to visit a context at all. -/
  precondition : σ → Context → Option String := fun _ _ => none
  /-- Before the nodes.  **Any action but going on leaves the nodes out.** -/
  start : List Definition → Visiting σ Action := fun _ => pure .proceed
  hook : Hook → Option (List Definition → NodeId → Visiting σ Action) := fun _ => none
  /-- After the nodes. -/
  finish : List Definition → Visiting σ Action := fun _ => pure .proceed
  /-- What stays in memory from one definition to the next. -/
  clear : σ → σ := id

namespace Visitor

variable {σ : Type}

/-- Offer a node to the hooks of its kind (`visit_node`). -/
def visitNode (visitor : Visitor σ) (others : List Definition) (id : NodeId) :
    Visiting σ Action := do
  let g ← Visiting.graph
  match (g.kind? id).bind fun kind => kind.hooks.findSome? visitor.hook with
  | some act => act others id
  | none => return .proceed

/-- Visit those of the given nodes that are still members, until an action ends it
(`traverse_graph`). -/
def visitNodes (visitor : Visitor σ) (others : List Definition) : List NodeId → Visiting σ Unit
  | [] => return ()
  | id :: rest => do
    let g ← Visiting.graph
    if !g.isActive id then visitNodes visitor others rest
    else
      let action ← visitor.visitNode others id
      let goOn ← Visiting.onGraph (action.perform id)
      if goOn then visitNodes visitor others rest else return ()

/-- The members in the order of the visitor. -/
def orderNodes (visitor : Visitor σ) (g : Graph) : Except Abort (List NodeId) :=
  match visitor.nodeOrder with
  | .creation => .ok g.members
  | .dataflow => g.dataflowOrder.mapError Abort.error

/-- Visit a definition (`traverse_definition`). -/
def visitDefinition (visitor : Visitor σ) (others : List Definition) : Visiting σ Unit := do
  let action ← visitor.start others
  if action = .proceed then
    let g ← Visiting.graph
    let order ← Run.ofExcept (visitor.orderNodes g)
    visitor.visitNodes others order
    let _ ← visitor.finish others
    Visiting.remember visitor.clear
  else Visiting.remember visitor.clear

end Visitor

/-! ## 3. Going through the definitions -/

/-- A context under a pass and the memory of the pass. -/
structure PassState (σ : Type) where
  memory : σ
  context : Context

/-- Change the definition at one place, told the others. -/
def updateAt {ε σ : Type} (change : List Definition → Run ε (VisitState σ) Unit) (place : Nat) :
    Run ε (PassState σ) Unit := fun p =>
  let definitions := p.context.definitions
  match definitions[place]? with
  | none => ⟨.ok (), p, []⟩
  | some d =>
    let o := change (definitions.eraseIdx place) ⟨p.memory, d⟩
    let context := { p.context with definitions := definitions.set place o.state.definition }
    ⟨o.result, ⟨o.state.memory, context⟩, o.reports⟩

/-- **Change the definitions one after the other** in the wanted order, each told the others as
they are then (`apply_update`).  A failure leaves the rest as they are. -/
def updateAll {ε σ : Type} (blame : Error → ε) (order : CallOrder)
    (change : List Definition → Run ε (VisitState σ) Unit) : Run ε (PassState σ) Unit := do
  let p ← Run.state
  let places ← Run.ofExcept ((schedule p.context.definitions order).mapError blame)
  Run.each (updateAt change) places

/-! ## 4. Passes -/

/-- A visitor with a name and a memory to start with, which may depend on the context. -/
structure Pass (σ : Type) where
  info : PassInfo
  init : Run Abort Context σ
  visitor : Visitor σ

namespace Pass

variable {σ : Type}

/-- Visit a context, unless the visitor has a reason not to (`do_pass`). -/
def visit (pass : Pass σ) : Run Abort (PassState σ) Unit := do
  let p ← Run.state
  match pass.visitor.precondition p.memory p.context with
  | some reason => Run.log .info ("Skipping `" ++ pass.info.name ++ "': " ++ reason)
  | none => updateAll Abort.error pass.visitor.callOrder pass.visitor.visitDefinition

/-- **Run a pass on a context**; the answer is the memory in the end (`do_pass_default`). -/
def run (pass : Pass σ) : Run Abort Context σ := do
  let memory ← pass.init
  fun context =>
    let o := pass.visit ⟨memory, context⟩
    ⟨o.result.map fun _ => o.state.memory, o.state.context, o.reports⟩

end Pass

end BehaviorGraph
