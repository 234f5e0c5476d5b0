/-
# Merging of equal nodes

Two nodes whose result depends on their payload only, and which have equal payloads, are one node
too many.  The later one is replaced by the earlier one.  That changes the payloads of its users,
so they are looked at again, until nothing is left to merge.

The walk works off a queue.  Every merge deletes a node, so there are at most as many merges as
nodes; between two merges the queue only gets shorter.

This is the pass `canonicalize`: `mergeable`, and `run`, which works off the queue.
-/
import BehaviorGraph.Traversal.Visitor

namespace BehaviorGraph

namespace Merging

def info : PassInfo :=
  { name := "canonicalize", description := "merge structurally equal nodes" }

/-- The kinds of nodes that can be merged: the unique ones, and operations that depend on their
inputs only. -/
def mergeable (kind : Kind) : Bool :=
  kind.isA .unique || kind.isA .cast || kind = .builtInCall || kind = .select || kind = .slice

/-- The nodes of a list that can be merged. -/
def candidates (g : Graph) (ids : List NodeId) : List NodeId :=
  ids.filter fun id =>
    match g.kind? id with
    | some kind => mergeable kind
    | none => false

/-- The node to use instead of `id`: a member met before that still has the same payload. -/
def twin? (g : Graph) (seen : Table Payload NodeId) (id : NodeId) (payload : Payload) :
    Option NodeId :=
  (seen.get? payload).filter fun canon =>
    !decide (canon = id) && g.isActive canon && decide (g.payload? canon = some payload)

/-- Work off the queue, and count the merges.  `bound` limits their number. -/
def mergeAll (bound : Nat) (queue : List NodeId) (seen : Table Payload NodeId) (merged : Nat) :
    Edit Nat :=
  match queue with
  | [] => pure merged
  | id :: rest => fun g =>
    match g.payload? id with
    | none => mergeAll bound rest seen merged g
    | some payload =>
      if !g.isActive id then mergeAll bound rest seen merged g
      else
        match twin? g seen id payload with
        | none => mergeAll bound rest (seen.insert payload id) merged g
        | some canon =>
          match bound with
          | 0 => ⟨.ok merged, g, []⟩
          | bound + 1 =>
            (do
              let users := g.users id
              let _ ← Graph.replace id canon
              let later ← Run.state
              mergeAll bound (rest ++ candidates later users) seen (merged + 1)) g
termination_by (bound, queue.length)

/-- **Merge the equal nodes of a graph**, and answer how many were removed. -/
def run : Edit Nat := do
  let g ← Run.state
  mergeAll g.nodes.size (candidates g g.members) Table.empty 0

def pass : Pass Unit where
  info := info
  init := pure ()
  visitor :=
    { start := fun _ => do
        let merged ← Visiting.edit run
        let v ← Run.state
        if 0 < merged then
          Run.log .debug (v.definition.name ++ ": merged " ++ toString merged ++ " node(s)")
        return .stop }

end Merging

end BehaviorGraph
