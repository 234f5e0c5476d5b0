/-
# Faults of graph operations

A graph operation refuses what would break the graph, and says why with a fault.  Each fault names
the nodes concerned; its wording is `Fault.message`.
-/
import BehaviorGraph.Payload
import BehaviorGraph.Error

namespace BehaviorGraph

/-- Why a graph operation was refused (`GraphFault`). -/
inductive Fault where
  /-- A node that is still used cannot be deleted.  There is one user for each edge. -/
  | hasUsages (node : NodeId) (users : List NodeId)
  /-- The node was deleted. -/
  | deleted (node : NodeId)
  /-- The node is not a member of the graph yet. -/
  | detached (node : NodeId)
  /-- The node is a member of the graph already. -/
  | attached (node : NodeId)
  /-- A required slot has no target. -/
  | missingInput (node : NodeId) (slot : String)
  /-- The target of a slot is of the wrong family. -/
  | typeMismatch (node : NodeId) (slot : String) (expected : Family) (found : Kind)
  /-- A node cannot be replaced by one that depends on it. -/
  | selfReplacement (old new : NodeId)
  /-- The node depends on itself through nodes that are not members yet. -/
  | cycle (node : NodeId)
  /-- The graph has no such node. -/
  | unknownNode (node : NodeId)
deriving DecidableEq

/-- The wording of a fault. -/
def Fault.message : Fault → String
  | hasUsages node users =>
    "cannot delete " ++ node.text ++ ": it is still used by " ++ toString users.length
      ++ " edge(s)"
  | deleted node => node.text ++ " was deleted"
  | detached node => node.text ++ " is not attached to the graph"
  | attached node => node.text ++ " is attached to the graph and cannot be modified in place"
  | missingInput node slot => "required input `" ++ slot ++ "` of " ++ node.text ++ " is unset"
  | typeMismatch node slot expected found =>
    "slot `" ++ slot ++ "` of " ++ node.text ++ " expects a " ++ expected.name
      ++ " node but got " ++ found.name
  | selfReplacement old new =>
    new.text ++ " cannot replace " ++ old.text ++ " because it depends on it"
  | cycle node => node.text ++ " forms a cycle through its detached edges"
  | unknownNode node => node.text ++ " does not belong to this graph"

/-- A fault that surfaces outside the graph is the compiler's own. -/
def Fault.toError (fault : Fault) : Error := Error.internal fault.message

end BehaviorGraph
