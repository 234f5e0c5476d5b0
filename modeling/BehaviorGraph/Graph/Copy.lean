/-
# Copying

A deep copy takes a node and everything it reads, along inputs only; the copies have no successors.
The walk is the same within one graph and from one graph into another: a node is entered, what it
reads is copied, and when it is left its copy is created, detached, reading the copies.  A table
records the copy of each node, so shared nodes stay shared, and a node that has an entry beforehand
is not copied but replaced by the entry.

A whole graph is copied by keeping its members only, which then have no gaps between them.

The operations are `copy`, `shallow_copy`, `copy_into` and, for whole graphs, `copy_graph`.
-/
import BehaviorGraph.Graph.Edit

namespace BehaviorGraph

namespace Graph

/-! ## 1. Copying what a node reads -/

/-- A graph that receives copies, and the copy of each node. -/
structure Transfer where
  target : Graph
  copies : Table NodeId NodeId

/-- The state of a copying walk. -/
structure Copying where
  transfer : Transfer
  /-- The nodes that were entered. -/
  entered : List NodeId

namespace Copying

/-- Whether the walk has to go into a node of `source`, and with what payload. -/
def enter (c : Copying) (source : Graph) (id : NodeId) : Except Fault (Option Payload) :=
  if c.transfer.copies.contains id then .ok none
  else do
    let node ← source.node id
    if node.isDeleted then throw (.deleted id)
    if id ∈ c.entered then throw (.cycle id)
    return some node.payload

/-- Leave a node: its copy reads the copies of what it reads. -/
def leave (c : Copying) (id : NodeId) (payload : Payload) : Copying :=
  let copyOf (target : Option NodeId) : Option NodeId := target.bind c.transfer.copies.get?
  let copy := (payload.assignInputs (payload.inputs.map copyOf)).clearSuccessors
  let place : NodeId := ⟨c.transfer.target.nodes.size⟩
  { c with transfer := ⟨c.transfer.target.push copy, c.transfer.copies.insert id place⟩ }

/-- Work off the pending steps (`copy_rec`, `copy_into_rec`).  `view` shows the graph that is
copied from, given the one that is copied to; `bound` limits how many nodes are entered. -/
def walk (view : Graph → Graph) (bound : Nat) (tasks : List (Task NodeId)) (c : Copying) :
    Outcome Fault Copying Unit :=
  match tasks with
  | [] => ⟨.ok (), c, []⟩
  | .leave id :: rest =>
    match (view c.transfer.target).payload? id with
    | none => ⟨.error (.unknownNode id), c, []⟩
    | some payload => walk view bound rest (c.leave id payload)
  | .enter id :: rest =>
    match c.enter (view c.transfer.target) id with
    | .error fault => ⟨.error fault, c, []⟩
    | .ok none => walk view bound rest c
    | .ok (some payload) =>
      match bound with
      | 0 => ⟨.error (.cycle id), c, []⟩
      | bound + 1 =>
        walk view bound (payload.inputEdges.map .enter ++ .leave id :: rest)
          { c with entered := id :: c.entered }
termination_by (bound, tasks.length)

end Copying

/-- A number above every identity that the arena holds or mentions. -/
def idBound (g : Graph) : Nat :=
  (g.ids.flatMap g.edges).foldl
    (fun bound id => if bound ≤ id.index then id.index + 1 else bound) g.nodes.size

/-- Copy a node and what it reads within the graph (`copy`).  **The copies are detached.** -/
def copy (id : NodeId) : Edit NodeId := fun g =>
  match Copying.walk (fun target => target) g.idBound [.enter id] ⟨⟨g, Table.empty⟩, []⟩ with
  | ⟨.error fault, c, reports⟩ => ⟨.error fault, c.transfer.target, reports⟩
  | ⟨.ok (), c, reports⟩ =>
    ⟨.ok ((c.transfer.copies.get? id).getD id), c.transfer.target, reports⟩

/-- A detached node with the payload of another, edges included (`shallow_copy`). -/
def shallowCopy (id : NodeId) : Edit NodeId := do
  let g ← Run.state
  let node ← Run.ofExcept (g.node id)
  if node.isDeleted then Run.fail (.deleted id)
  create node.payload

/-- **Copy a node of `source` and what it reads into another graph, and attach the copy there**
(`copy_into`).  Nodes with an entry in the table beforehand are taken from the table.  In the end
the table has the member that stands for each copy. -/
def copyInto (source : Graph) (root : NodeId) : Run Fault Transfer NodeId := fun t =>
  match Copying.walk (fun _ => source) source.nodes.size [.enter root] ⟨t, []⟩ with
  | ⟨.error fault, c, reports⟩ => ⟨.error fault, c.transfer, reports⟩
  | ⟨.ok (), c, reports⟩ =>
    let place := (c.transfer.copies.get? root).getD root
    match attachResolving place c.transfer.target with
    | ⟨.error fault, target, later⟩ =>
      ⟨.error fault, ⟨target, c.transfer.copies⟩, reports ++ later⟩
    | ⟨.ok resolved, target, later⟩ =>
      let standsFor (id : NodeId) : NodeId := (resolved.get? id).getD id
      ⟨.ok (standsFor place), ⟨target, c.transfer.copies.mapValues standsFor⟩, reports ++ later⟩

/-! ## 2. Copying a graph -/

/-- Record the edges of a new member, and pool it if it is the first of a unique payload. -/
def settle (g : Graph) (id : NodeId) : Graph :=
  match g.payload? id with
  | none => g
  | some payload =>
    let g := g.addUsages id payload.edges
    if payload.kind.isUnique && !g.pool.contains payload then
      { g with pool := g.pool.insert payload id }
    else g

/-- **The members of a graph without gaps**, in the same order, under the same name and owner
(`copy_graph`). -/
def compact (g : Graph) : Graph :=
  let place : Table NodeId NodeId := Table.ofList (g.members.zip g.ids)
  let moved (payload : Payload) : Payload :=
    (payload.assignInputs (payload.inputs.map (·.bind place.get?))).assignSuccessors
      (payload.successors.map (·.bind place.get?))
  let nodes := (g.members.filterMap g.payload?).map fun payload =>
    ({ payload := moved payload, state := .active, member := true } : Node)
  let copy : Graph := { name := g.name, owner := g.owner, nodes := nodes.toArray }
  copy.ids.foldl settle copy

end Graph

end BehaviorGraph
