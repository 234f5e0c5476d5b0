/-
# Behaviour graphs

A behaviour graph is an arena of nodes.  A node never leaves the arena and never changes its place;
what changes is its state.  It is created detached, becomes active when it is attached, and deleted
when it is no longer wanted.  Only active nodes are members of the graph.

Two records are kept beside the payloads.  Each node lists its usages, one entry for each edge that
an active node has to it, in the order in which the edges came; and the pool maps the payload of
each active node of a unique kind to the node, so that an equal payload is never attached twice.

This module has the graph and everything that only reads it.

The names in parentheses, here and in the other modules, are those of the operations and types of
the compiler whose graphs these are: the members of a graph are its `nodes`, and a node is looked
up with `get`.
-/
import BehaviorGraph.Fault
import BehaviorGraph.Table
import BehaviorGraph.Digraph

namespace BehaviorGraph

/-! ## 1. Definitions as owners -/

/-- What a definition describes (`DefinitionKind`). -/
inductive Role where
  | function
  | instruction
  | stage
deriving DecidableEq

namespace Role

def name : Role → String
  | function => "function"
  | instruction => "instruction"
  | stage => "stage"

def ofName? : String → Option Role
  | "function" => some function
  | "instruction" => some instruction
  | "stage" => some stage
  | _ => none

/-- The kind of node the behaviour of such a definition ends with. -/
def terminal : Role → Kind
  | function => .ret
  | instruction => .instrEnd
  | stage => .procEnd

end Role

/-- The definition whose behaviour a graph describes. -/
structure Owner where
  name : String
  role : Role
  position : Option Span
deriving DecidableEq

/-! ## 2. Nodes and graphs -/

/-- Where a node is in its life. -/
inductive NodeState where
  | detached
  | active
  | deleted
deriving DecidableEq

def NodeState.name : NodeState → String
  | detached => "Detached"
  | active => "Active"
  | deleted => "Deleted"

/-- A node of the arena. -/
structure Node where
  payload : Payload
  state : NodeState := .detached
  /-- Whether the graph counts the node among its members. -/
  member : Bool := false
  /-- The user of each edge to this node. -/
  usages : List NodeId := []
deriving DecidableEq

namespace Node

def kind (node : Node) : Kind := node.payload.kind

def isActive (node : Node) : Bool := decide (node.state = .active)

def isDeleted (node : Node) : Bool := decide (node.state = .deleted)

end Node

/-- An arena of nodes with the pool of its unique ones. -/
structure Graph where
  name : String
  owner : Option Owner := none
  nodes : Array Node := #[]
  pool : Table Payload NodeId := Table.empty
deriving DecidableEq

namespace Graph

/-- The graph without nodes. -/
def empty (name : String) : Graph := { name := name }

def setOwner (g : Graph) (owner : Owner) : Graph := { g with owner := some owner }

/-- The position of the definition that owns the graph. -/
def position (g : Graph) : Option Span := g.owner.bind Owner.position

/-! ## 3. Reading one node -/

/-- The node of an identity (`get`). -/
def node? (g : Graph) (id : NodeId) : Option Node := g.nodes[id.index]?

/-- The node of an identity; an identity the graph does not have is a fault. -/
def node (g : Graph) (id : NodeId) : Except Fault Node :=
  match g.node? id with
  | some node => .ok node
  | none => .error (.unknownNode id)

def payload? (g : Graph) (id : NodeId) : Option Payload := (g.node? id).map Node.payload

def kind? (g : Graph) (id : NodeId) : Option Kind := (g.node? id).map Node.kind

def isActive (g : Graph) (id : NodeId) : Bool :=
  match g.node? id with
  | some node => node.isActive
  | none => false

/-- Whether the node exists and is of a family. -/
def isA (g : Graph) (id : NodeId) (family : Family) : Bool :=
  match g.kind? id with
  | some kind => kind.isA family
  | none => false

/-- One entry for each edge to the node, in the order in which the edges came. -/
def usages (g : Graph) (id : NodeId) : List NodeId :=
  match g.node? id with
  | some node => node.usages
  | none => []

/-- The distinct nodes with an edge to the node, in the order in which they first used it. -/
def users (g : Graph) (id : NodeId) : List NodeId := (g.usages id).eraseDups

/-- The targets of the node's input slots. -/
def inputs (g : Graph) (id : NodeId) : List (Option NodeId) :=
  match g.payload? id with
  | some payload => payload.inputs
  | none => []

/-- The targets of the node's successor slots. -/
def successors (g : Graph) (id : NodeId) : List (Option NodeId) :=
  match g.payload? id with
  | some payload => payload.successors
  | none => []

/-- Every target the node has an edge to. -/
def edges (g : Graph) (id : NodeId) : List NodeId :=
  match g.payload? id with
  | some payload => payload.edges
  | none => []

/-- The node from which control comes to this one. -/
def predecessor? (g : Graph) (id : NodeId) : Option NodeId :=
  (g.users id).find? fun user => (g.successors user).contains (some id)

/-- A node that must be a member for an operation to work on it (`check_active`). -/
def requireActive (g : Graph) (id : NodeId) : Except Fault Unit := do
  let node ← g.node id
  match node.state with
  | .active => .ok ()
  | .detached => .error (.detached id)
  | .deleted => .error (.deleted id)

/-- Whether `target` may fill a slot of `owner`: it is there, or it need not be; it is not deleted;
and it is of the family the slot asks for (`check_slot`). -/
def checkSlot (g : Graph) (owner : NodeId) (slot : Slot) (target : Option NodeId) :
    Except Fault Unit :=
  match target with
  | none => if slot.optional then .ok () else .error (.missingInput owner slot.name)
  | some target =>
    match g.node? target with
    | none => .error (.unknownNode target)
    | some node =>
      if node.isDeleted then .error (.deleted target)
      else if node.kind.isA slot.family then .ok ()
      else .error (.typeMismatch owner slot.name slot.family node.kind)

/-! ## 4. Reading the members -/

/-- Every identity of the arena, in order of creation. -/
def ids (g : Graph) : List NodeId := (List.range g.nodes.size).map NodeId.mk

/-- The members, in order of creation (`nodes`). -/
def members (g : Graph) : List NodeId := g.ids.filter g.isActive

/-- The members a filter picks, in order of creation (`nodes_of`). -/
def membersOf (g : Graph) (filter : Filter) : List NodeId :=
  g.members.filter fun id =>
    match g.kind? id with
    | some kind => filter.admits kind
    | none => false

/-- The only member a filter picks, if there is exactly one (`single_node_of`). -/
def single? (g : Graph) (filter : Filter) : Option NodeId :=
  match g.membersOf filter with
  | [id] => some id
  | _ => none

/-- The node the behaviour starts with. -/
def start? (g : Graph) : Option NodeId := g.single? (.exactly .start)

/-- The nodes the behaviour may end with. -/
def ends (g : Graph) : List NodeId := g.membersOf (.family .terminal)

/-- The number of members (`len`). -/
def size (g : Graph) : Nat := g.members.length

def isEmpty (g : Graph) : Bool := g.members.isEmpty

/-- The member that stands for a payload, if the pool has one (`pooled`). -/
def pooled? (g : Graph) (payload : Payload) : Option NodeId :=
  (g.pool.get? payload).filter fun id =>
    match g.node? id with
    | some node => node.isActive && decide (node.payload = payload)
    | none => false

/-! ## 5. Following edges -/

/-- Follow bindings to what they name, at most `bound` of them. -/
def unbind (g : Graph) : Nat → NodeId → NodeId
  | 0, id => id
  | bound + 1, id =>
    match g.payload? id with
    | some (.binding value _) => unbind g bound value
    | _ => id

/-- **The node a value comes from**, looking through bindings.  A chain of bindings that do not
repeat is shorter than the arena. -/
def origin (g : Graph) (id : NodeId) : NodeId := unbind g g.nodes.size id

/-- The type of the value of a node, looking through bindings (`type_of`). -/
def typeOf (g : Graph) (id : NodeId) : Option ValueType :=
  (g.payload? (g.origin id)).bind Payload.declaredType

/-- The number of bits of the value of a node. -/
def widthOf (g : Graph) (id : NodeId) : Option Nat := (g.typeOf id).map ValueType.width

/-- The constant a node stands for, looking through bindings. -/
def constantOf (g : Graph) (id : NodeId) : Option Constant :=
  match g.payload? (g.origin id) with
  | some (.const constant) => some constant
  | _ => none

/-- The number of edges stored in the arena, whatever the states of the nodes. -/
def edgeCount (g : Graph) : Nat := (g.nodes.toList.flatMap fun node => node.payload.edges).length

/-- **Whether `goal` can be reached from `source`** along stored input and successor edges
(`reaches`). -/
def reaches (g : Graph) (source goal : NodeId) : Bool :=
  (search g.edges (1 + g.edgeCount) [source] []).contains goal

end Graph

end BehaviorGraph
