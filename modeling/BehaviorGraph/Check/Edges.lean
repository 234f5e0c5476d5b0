/-
# Edges, usages and unique nodes

The bookkeeping of a graph is right when every slot of every member is filled as it has to be, the
usages of every member list exactly the edges that point to it, and no two members of a unique kind
have the same payload.
-/
import BehaviorGraph.Check.Report

namespace BehaviorGraph

namespace Graph

/-! ## 1. Edges -/

/-- What is wrong with one slot of a member. -/
def slotComplaint? (g : Graph) (id : NodeId) (slot : Slot) : Option String :=
  match slot.target with
  | none =>
    if slot.optional then none
    else some ("required input `" ++ slot.name ++ "` of " ++ g.describe id ++ " is unset")
  | some target =>
    let subject := "`" ++ slot.name ++ "` of " ++ g.describe id
    match g.node? target with
    | none => some (subject ++ " points to unknown node " ++ target.text)
    | some node =>
      if !node.isActive then
        some (subject ++ " points to " ++ node.state.name ++ " node " ++ g.describe target)
      else if node.kind.isA slot.family then none
      else
        some (subject ++ " expects a " ++ slot.family.name ++ " node but got " ++ g.describe target)

/-- What is wrong with the slots of a member. -/
def slotComplaints (g : Graph) (id : NodeId) : List String :=
  match g.payload? id with
  | none => []
  | some payload => payload.slots.filterMap (g.slotComplaint? id)

/-- The users the edges of the members give a node, one for each edge. -/
def expectedUsers (g : Graph) (id : NodeId) : List NodeId :=
  g.members.flatMap fun user =>
    ((g.edges user).filter fun target => decide (target = id)).map fun _ => user

/-- What is wrong with the usages of a member. -/
def usageComplaint? (g : Graph) (id : NodeId) : Option String :=
  let sorted (users : List NodeId) := users.mergeSort fun a b => decide (a.index ≤ b.index)
  let shown (users : List NodeId) :=
    "[" ++ String.intercalate ", " (users.map NodeId.spelled) ++ "]"
  let recorded := sorted (g.usages id)
  let needed := sorted (g.expectedUsers id)
  if recorded = needed then none
  else
    some ("usages of " ++ g.describe id ++ " are " ++ shown recorded ++ " but its users are "
      ++ shown needed)

/-- **Every slot is filled as it has to be, and usages and edges agree** (`check_edges`). -/
def checkEdges (g : Graph) : Diagnostics :=
  .ofErrors ((g.members.flatMap g.slotComplaints ++ g.members.filterMap g.usageComplaint?).map
    g.structureError)

/-! ## 2. Unique nodes -/

/-- The members among `rest` that repeat the payload of an earlier one, with the earliest such. -/
def duplicates (g : Graph) (seen : List (NodeId × Payload)) : List NodeId → List (NodeId × NodeId)
  | [] => []
  | id :: rest =>
    match g.payload? id with
    | none => duplicates g seen rest
    | some payload =>
      match seen.find? fun entry => decide (entry.2 = payload) with
      | some (first, _) => (id, first) :: duplicates g seen rest
      | none => duplicates g (seen ++ [(id, payload)]) rest

/-- **No two members of a unique kind have the same payload** (`check_unique`). -/
def checkUnique (g : Graph) : Diagnostics :=
  .ofErrors ((g.duplicates [] (g.membersOf (.family .unique))).map fun (id, first) =>
    g.structureError (g.describe id ++ " duplicates unique node " ++ first.text))

end Graph

end BehaviorGraph
