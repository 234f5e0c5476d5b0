/-
# Control flow

Control starts at one node, goes along successor edges and from the end of a branch to the node that
merges it, and has to arrive at the one terminal node that suits the owner of the graph.

The checks work on a directed graph of the control nodes, `Graph.controlFlow`.  They look for more
than one way into a node, for cycles, and, from the start on, for places where control stops short.

The checks are `check_terminal` and `check_control_flow`.
-/
import BehaviorGraph.Check.Report

namespace BehaviorGraph

namespace Graph

/-! ## 1. The terminal node -/

/-- **The graph ends in exactly one terminal node, of the kind its owner asks for**
(`check_terminal`). -/
def checkTerminal (g : Graph) : Diagnostics :=
  match g.owner with
  | none =>
    match g.ends.length with
    | 0 => .ofErrors [g.controlError "graph has no terminal node"]
    | 1 => .empty
    | count => .ofErrors [g.controlError ("graph has " ++ toString count ++ " terminal nodes")]
  | some owner =>
    let expected := owner.role.terminal
    let fits (id : NodeId) : Bool := decide (g.kind? id = some expected)
    let misfits := (g.ends.filter fun id => !fits id).map fun id =>
      g.controlError (g.describe id ++ " cannot end a " ++ owner.role.name)
    let count :=
      match (g.ends.filter fits).length with
      | 0 => [g.controlError ("missing " ++ expected.name ++ " node")]
      | 1 => []
      | count =>
        [g.controlError (toString count ++ " " ++ expected.name
          ++ " nodes but exactly one is allowed")]
    .ofErrors (misfits ++ count)

/-! ## 2. The control flow as a directed graph -/

/-- Where control goes from a control node: along its successor edges, and from the end of a branch
to the nodes that merge it. -/
def controlTargets (g : Graph) (id : NodeId) : List NodeId :=
  let successors := (g.successors id).filterMap fun target => target
  let merges :=
    if g.kind? id = some .branchEnd then
      (g.users id).filter fun user => decide (g.kind? user = some .merge)
    else []
  successors ++ merges

/-- The control nodes and the ways between them. -/
def controlFlow (g : Graph) : Digraph NodeId :=
  (g.membersOf (.family .control)).foldl
    (fun flow id => (g.controlTargets id).foldl (fun flow target => flow.addEdge id target)
      (flow.addVertex id)) {}

/-! ## 3. The ways in -/

/-- Too many ways into a control node.  Only a merging node may have several, and the start none. -/
def entryComplaint? (g : Graph) (flow : Digraph NodeId) (id : NodeId) : Option String :=
  let count := (flow.previous id).length
  match g.kind? id with
  | some .merge => none
  | some .start => if 0 < count then some (g.describe id ++ " has a predecessor") else none
  | _ =>
    if 1 < count then some (g.describe id ++ " has " ++ toString count ++ " predecessors") else none

/-! ## 4. The ways on -/

/-- Where control stops short at a node: at the end of a branch that is not merged exactly once, or
at an empty successor slot.  A terminal node is where control has to stop. -/
def exitComplaints (g : Graph) (flow : Digraph NodeId) (id : NodeId) : List String :=
  match g.payload? id with
  | none => []
  | some payload =>
    if payload.kind.isA .terminal then []
    else if payload.kind = .branchEnd then
      let merges := (flow.next id).length
      if merges = 1 then []
      else
        [g.describe id ++ " must be joined by exactly one merge but has " ++ toString merges]
    else
      (payload.successorSlots.filter fun slot => slot.target.isNone).map fun slot =>
        "control flow stops at " ++ g.describe id ++ ": `" ++ slot.name ++ "` is unset"

/-- **The control flow from the start is free of cycles, has one way into each node and stops at
terminal nodes only** (`check_control_flow`).  Control nodes out of reach are remarked upon. -/
def checkControlFlow (g : Graph) : Diagnostics :=
  match g.membersOf (.exactly .start) with
  | [] => .empty
  | start :: others =>
    let flow := g.controlFlow
    let starts :=
      if others.isEmpty then []
      else ["graph has " ++ toString (others.length + 1) ++ " start nodes"]
    let entries := flow.vertices.filterMap (g.entryComplaint? flow)
    let cycles := if flow.isCyclic then ["control flow contains a cycle"] else []
    let reached := flow.depthFirst start
    let exits := reached.flatMap (g.exitComplaints flow)
    let unreached := (flow.vertices.filter fun id => !reached.contains id).mergeSort fun a b =>
      decide (a.index ≤ b.index)
    { errors := (starts ++ entries ++ cycles ++ exits).map g.controlError
      warnings := unreached.map fun id =>
        g.remark (g.describe id ++ " is unreachable from " ++ start.text) }

end Graph

end BehaviorGraph
