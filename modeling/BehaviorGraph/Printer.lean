/-
# Printing graphs

Text for people: one line for each member of a graph, a header for each definition, and a rendering
of a graph in the language of Graphviz.  A node line shows the kind, the data that is worth
showing, the inputs, the successors and the type of the value:

    n4 = BuiltInCall[add](n2, n3): UInt<32>

`Node.summary` is the shorter line that shows a node of the arena in whatever state it is.

The lines are those of `node_to_str`, and the texts those of `write_graph`, `write_definition`,
`write_context` and `write_dot`.
-/
import BehaviorGraph.Definition

namespace BehaviorGraph

/-! ## 1. Parts of a line -/

/-- The data of a payload in brackets, or nothing (`format_data`). -/
def Payload.dataText : Payload → String
  | .const constant => "[" ++ toString constant.value ++ "]"
  | .param name _ | .field name _ | .binding _ name | .readReg name _ | .readRegFile _ name _
  | .writeReg _ _ name | .writeRegFile _ _ _ name | .funcCall _ name _ => "[" ++ name ++ "]"
  | .builtInCall _ op _ => "[" ++ op.name ++ "]"
  | .slice _ high low _ => "[" ++ toString high ++ ":" ++ toString low ++ "]"
  | .readMem _ mem words _ | .writeMem _ _ _ mem words =>
    "[" ++ mem ++ ", " ++ toString words ++ "]"
  | _ => ""

/-- A target, or an underscore for an empty slot. -/
def targetText : Option NodeId → String
  | some id => id.text
  | none => "_"

/-- Targets with a separator between them (`format_targets`). -/
def targetsText (separator : String) (targets : List (Option NodeId)) : String :=
  String.intercalate separator (targets.map targetText)

/-! ## 2. Nodes -/

/-- The line of a node; there is none for an identity the graph does not have (`node_to_str`). -/
def Graph.nodeText? (g : Graph) (id : NodeId) : Option String := do
  let payload ← g.payload? id
  let inputs :=
    match payload.inputs with
    | [] => ""
    | targets => "(" ++ targetsText ", " targets ++ ")"
  let successors :=
    match payload.successors with
    | [] => ""
    | [target] => " -> " ++ targetText target
    | targets => " -> (" ++ targetsText ", " targets ++ ")"
  let type :=
    match g.typeOf id with
    | some type => ": " ++ type.text
    | none => ""
  return id.text ++ " = " ++ payload.kind.name ++ payload.dataText ++ inputs ++ successors ++ type

/-- One letter for each state. -/
def NodeState.letter : NodeState → String
  | detached => "D"
  | active => "A"
  | deleted => "X"

/-- A node of the arena on one line: identity, state, kind, edges as stored, usages. -/
def Node.summary (id : NodeId) (node : Node) : String :=
  id.text ++ " " ++ node.state.letter ++ " " ++ node.kind.name
    ++ "(" ++ targetsText "," node.payload.inputs ++ ")->("
    ++ targetsText "," node.payload.successors ++ ") ["
    ++ String.intercalate "," (node.usages.map NodeId.text) ++ "]"

/-- The summaries of the whole arena. -/
def Graph.summary (g : Graph) : List String :=
  g.ids.filterMap fun id => (g.node? id).map (Node.summary id)

/-! ## 3. Graphs, definitions, contexts -/

/-- A graph: its name and owner, and a line for each member (`write_graph`). -/
def Graph.print (g : Graph) : String :=
  let owner :=
    match g.owner with
    | some owner => " (" ++ owner.role.name ++ " " ++ owner.name ++ ")"
    | none => ""
  let lines := (g.members.filterMap g.nodeText?).map fun line => "  " ++ line ++ "\n"
  "graph " ++ g.name ++ owner ++ " \x7b\n" ++ String.join lines ++ "\x7d\n"

/-- A definition: its signature and its behaviour (`write_definition`). -/
def Definition.print (d : Definition) : String :=
  let params := d.params.map fun param => param.name ++ ": " ++ param.type.text
  let result :=
    match d.result with
    | some type => " -> " ++ type.text
    | none => ""
  d.role.name ++ " " ++ d.name ++ "(" ++ String.intercalate ", " params ++ ")" ++ result ++ "\n"
    ++ d.behavior.print

/-- Every definition, each followed by an empty line (`write_context`). -/
def Context.print (context : Context) : String :=
  String.join (context.definitions.map fun d => d.print ++ "\n")

/-! ## 4. Graphviz -/

/-- The vertex of a member. -/
def Graph.dotVertex (g : Graph) (id : NodeId) : String :=
  match g.payload? id with
  | none => ""
  | some payload =>
    let shape := if payload.kind.isA .control then "box" else "ellipse"
    "  " ++ id.text ++ " [shape=" ++ shape ++ ", label=\"" ++ id.text ++ ": " ++ payload.kind.name
      ++ payload.dataText ++ "\"];\n"

/-- The edges of a member: dashed from each input, red to each successor. -/
def Graph.dotEdges (g : Graph) (id : NodeId) : String :=
  match g.payload? id with
  | none => ""
  | some payload =>
    let reads := payload.inputSlots.map fun slot =>
      match slot.target with
      | some target =>
        "  " ++ target.text ++ " -> " ++ id.text ++ " [style=dashed, label=\"" ++ slot.name
          ++ "\"];\n"
      | none => ""
    let goesTo := payload.successorSlots.map fun slot =>
      match slot.target with
      | some target =>
        "  " ++ id.text ++ " -> " ++ target.text ++ " [color=red, label=\"" ++ slot.name ++ "\"];\n"
      | none => ""
    String.join reads ++ String.join goesTo

/-- The members of a graph and their edges in the language of Graphviz (`write_dot`). -/
def Graph.dot (g : Graph) : String :=
  "digraph \"" ++ g.name ++ "\" \x7b\n" ++ String.join (g.members.map g.dotVertex)
    ++ String.join (g.members.map g.dotEdges) ++ "\x7d\n"

end BehaviorGraph
