/-
# The wording of complaints about a graph

Complaints about a graph quote its name and stand at the position of its owner.  Nodes are shown
with their kind.
-/
import BehaviorGraph.Graph.Basic

namespace BehaviorGraph

namespace Graph

/-- A complaint about the dataflow (`structure`). -/
def structureError (g : Graph) (message : String) : Error :=
  (Error.malformedStructure ("`" ++ g.name ++ "`: " ++ message)).locatedAt g.position

/-- A complaint about the control flow (`control`). -/
def controlError (g : Graph) (message : String) : Error :=
  (Error.malformedControl ("`" ++ g.name ++ "`: " ++ message)).locatedAt g.position

/-- A remark that is no error (`warn`). -/
def remark (g : Graph) (message : String) : Error :=
  (Error.other ("`" ++ g.name ++ "`: " ++ message)).locatedAt g.position

/-- A node with its kind: `n3 (Slice)` (`show`). -/
def describe (g : Graph) (id : NodeId) : String :=
  match g.kind? id with
  | some kind => id.text ++ " (" ++ kind.name ++ ")"
  | none => id.text

end Graph

end BehaviorGraph
