/-
# Creating, attaching and deleting nodes

A detached node becomes a member by being attached, and with it everything detached that it has
edges to.  Attaching is a depth-first walk: a node is entered, then its inputs and its successors
are attached in order, then it is left, and only when it is left does the graph change.  Entering
checks every slot of the node, so nothing behind a bad slot is ever attached.

A walk that meets a fault stops there.  Nodes left before stay attached.

Of two unique nodes with equal payloads only one can be a member.  The other is deleted when it is
left, and every edge that was to point to it points to the member instead: the walk records who
stands for whom (`Attachment.resolved`).

The operations are `detached`, `kind_mut`, `attach`, `add` and `delete`.  The walk behind attaching
is `attach_rec`, with the stack of calls made explicit.
-/
import BehaviorGraph.Graph.Basic
import BehaviorGraph.Run

namespace BehaviorGraph

/-- An operation on a graph. -/
abbrev Edit (α : Type) := Run Fault Graph α

namespace Graph

/-! ## 1. Changing one node -/

/-- Change a node; an identity the graph does not have changes nothing. -/
def modify (g : Graph) (id : NodeId) (f : Node → Node) : Graph :=
  { g with nodes := g.nodes.modify id.index f }

/-- Record one more edge from `user`. -/
def addUsage (g : Graph) (target user : NodeId) : Graph :=
  g.modify target fun node => { node with usages := node.usages ++ [user] }

/-- Forget one edge from `user`, the one recorded first. -/
def removeUsage (g : Graph) (target user : NodeId) : Graph :=
  g.modify target fun node => { node with usages := node.usages.erase user }

/-- Record the edges of `user`, one after the other. -/
def addUsages (g : Graph) (user : NodeId) (targets : List NodeId) : Graph :=
  targets.foldl (fun g target => g.addUsage target user) g

/-- Forget the edges of `user`, one after the other. -/
def removeUsages (g : Graph) (user : NodeId) (targets : List NodeId) : Graph :=
  targets.foldl (fun g target => g.removeUsage target user) g

/-- A new detached node at the end of the arena. -/
def push (g : Graph) (payload : Payload) : Graph :=
  { g with nodes := g.nodes.push { payload := payload } }

/-- Create a detached node (`detached`). -/
def create (payload : Payload) : Edit NodeId := fun g =>
  ⟨.ok ⟨g.nodes.size⟩, g.push payload, []⟩

/-- Overwrite the payload of a detached node (`kind_mut`). -/
def setPayload (id : NodeId) (payload : Payload) : Edit Unit := fun g =>
  match g.node? id with
  | none => ⟨.error (.unknownNode id), g, []⟩
  | some node =>
    match node.state with
    | .detached => ⟨.ok (), g.modify id fun node => { node with payload := payload }, []⟩
    | .active => ⟨.error (.attached id), g, []⟩
    | .deleted => ⟨.error (.deleted id), g, []⟩

/-! ## 2. Attaching -/

/-- The state of a walk that attaches nodes. -/
structure Attachment where
  graph : Graph
  /-- The nodes that were entered and not left yet. -/
  entered : List NodeId
  /-- The member that stands for each node that was left. -/
  resolved : Table NodeId NodeId

namespace Attachment

/-- Who stands for a node: the node itself unless the walk resolved it otherwise. -/
def representative (a : Attachment) (id : NodeId) : NodeId := (a.resolved.get? id).getD id

/-- Whether the walk has to go into a node, and with what payload.  A node that is resolved or
active is done; **a deleted node, a node entered already and a node with a bad slot are faults**.
-/
def enter (a : Attachment) (id : NodeId) : Except Fault (Option Payload) :=
  if a.resolved.contains id then .ok none
  else do
    let node ← a.graph.node id
    match node.state with
    | .active => return none
    | .deleted => throw (.deleted id)
    | .detached =>
      if id ∈ a.entered then throw (.cycle id)
      node.payload.slots.forM fun slot =>
        a.graph.checkSlot id slot (slot.target.map a.representative)
      return some node.payload

/-- Give up a node in favour of the member that stands for it. -/
def discard (a : Attachment) (id member : NodeId) : Attachment :=
  { graph := a.graph.modify id fun node => { node with state := .deleted }
    entered := a.entered.erase id
    resolved := a.resolved.insert id member }

/-- Make a node a member: its edges are recorded, and if it is unique the pool learns of it. -/
def enroll (a : Attachment) (id : NodeId) (payload : Payload) : Attachment :=
  let graph := a.graph.modify id fun node =>
    { node with payload := payload, state := .active, member := true }
  let graph :=
    if payload.kind.isUnique then { graph with pool := graph.pool.insert payload id } else graph
  { graph := graph.addUsages id payload.edges
    entered := a.entered.erase id
    resolved := a.resolved.insert id id }

/-- The member an equal payload is already attached as, for payloads of unique kinds. -/
def twin? (a : Attachment) (payload : Payload) : Option NodeId :=
  if payload.kind.isUnique then a.graph.pooled? payload else none

/-- Leave a node: everything it has edges to is attached by now. -/
def leave (a : Attachment) (id : NodeId) : Outcome Fault Attachment Unit :=
  match a.graph.payload? id with
  | none => ⟨.error (.unknownNode id), a, []⟩
  | some payload =>
    let payload := payload.mapEdges a.representative
    let tag := a.graph.name ++ ": "
    match a.twin? payload with
    | some member =>
      let text := tag ++ id.text ++ " deduplicated to " ++ member.text
      ⟨.ok (), a.discard id member, [.entry .trace (some text)]⟩
    | none =>
      let text := tag ++ "attached " ++ id.text ++ " (" ++ payload.kind.name ++ ")"
      ⟨.ok (), a.enroll id payload, [.entry .trace (some text)]⟩

/-- Work off the pending steps (`attach_rec`).  `bound` limits how many nodes are entered; each is
entered at most once, so the size of the arena is enough. -/
def walk (bound : Nat) (tasks : List (Task NodeId)) (a : Attachment) :
    Outcome Fault Attachment Unit :=
  match tasks with
  | [] => ⟨.ok (), a, []⟩
  | .leave id :: rest =>
    match a.leave id with
    | ⟨.error fault, a, reports⟩ => ⟨.error fault, a, reports⟩
    | ⟨.ok (), a, reports⟩ => (walk bound rest a).after reports
  | .enter id :: rest =>
    match a.enter id with
    | .error fault => ⟨.error fault, a, []⟩
    | .ok none => walk bound rest a
    | .ok (some payload) =>
      match bound with
      | 0 => ⟨.error (.cycle id), a, []⟩
      | bound + 1 =>
        walk bound (payload.edges.map .enter ++ .leave id :: rest)
          { a with entered := id :: a.entered }
termination_by (bound, tasks.length)

end Attachment

/-- Attach a node, and answer who stands for each node attached on the way (`attach_resolving`). -/
def attachResolving (id : NodeId) : Edit (Table NodeId NodeId) := fun g =>
  match Attachment.walk g.nodes.size [.enter id] ⟨g, [], Table.empty⟩ with
  | ⟨.ok (), a, reports⟩ => ⟨.ok a.resolved, a.graph, reports⟩
  | ⟨.error fault, a, reports⟩ => ⟨.error fault, a.graph, reports⟩

/-- **Make a node a member of the graph**, with everything detached that it has edges to, and
answer the member that stands for it (`attach`).  A member stands for itself. -/
def attach (id : NodeId) : Edit NodeId := do
  let resolved ← attachResolving id
  return (resolved.get? id).getD id

/-- Create a node and attach it.  The node takes its place in the arena even if it cannot be
attached or another one stands for it. -/
def add (payload : Payload) : Edit NodeId := do
  let id ← create payload
  attach id

/-! ## 3. Deleting -/

/-- Forget the entry of a payload, if it is the one of `id`. -/
def unpool (pool : Table Payload NodeId) (payload : Payload) (id : NodeId) : Table Payload NodeId :=
  if pool.get? payload = some id then pool.erase payload else pool

/-- Forget the edges of a member and its entry in the pool. -/
def unregister (g : Graph) (id : NodeId) (payload : Payload) : Graph :=
  let g := g.removeUsages id payload.edges
  if payload.kind.isUnique then { g with pool := unpool g.pool payload id } else g

/-- **Delete a node nobody uses** (`delete`).  The edges it had are forgotten by their targets. -/
def delete (id : NodeId) : Edit Unit := fun g =>
  match g.node? id with
  | none => ⟨.error (.unknownNode id), g, []⟩
  | some node =>
    if node.isDeleted then ⟨.error (.deleted id), g, []⟩
    else if node.usages.isEmpty then
      let rest := if node.isActive then g.unregister id node.payload else g
      let rest := rest.modify id fun node => { node with state := .deleted, member := false }
      let text := g.name ++ ": deleted " ++ id.text ++ " (" ++ node.kind.name ++ ")"
      ⟨.ok (), rest, [.entry .trace (some text)]⟩
    else ⟨.error (.hasUsages id node.usages), g, []⟩

end Graph

end BehaviorGraph
