/-
# Dataflow order

An order of the members of a graph in which every node stands behind the nodes it reads.  Successor
edges play no role.  Such an order exists unless a node depends on itself.
-/
import BehaviorGraph.Check.Report

namespace BehaviorGraph

namespace Graph

/-- The members and the edges from what is read to who reads it.  Reading something that is no
member is an error. -/
def dataflow (g : Graph) : Except Error (Digraph NodeId) := do
  let start : Digraph NodeId := { vertices := g.members }
  g.members.foldlM
    (fun flow id =>
      (g.inputs id).foldlM
        (fun flow input =>
          match input with
          | none => .ok flow
          | some source =>
            if g.isActive source then .ok (flow.addEdge source id)
            else
              .error (Error.internal (id.text ++ " reads " ++ source.text
                ++ ", which is not a live node of `" ++ g.name ++ "`")))
        flow)
    start

/-- **The members, each behind the nodes it reads** (`DataflowOrder`). -/
def dataflowOrder (g : Graph) : Except Error (List NodeId) := do
  let flow ← g.dataflow
  match flow.order? with
  | .ok order => .ok order
  | .error id => .error (g.structureError (id.text ++ " depends on itself"))

end Graph

end BehaviorGraph
