/-
# Removal of dead values

A value nobody uses is deleted.  That may leave its inputs without users, so they are looked at
next.  Control nodes and side effects are never deleted.

The walk works off a stack.  Every deletion takes a member away, so there are at most as many
deletions as nodes; between two deletions the stack only gets shorter.

This is the pass `dead-node-removal`: `removable`, and `run`, which works off the stack.
-/
import BehaviorGraph.Traversal.Visitor

namespace BehaviorGraph

namespace DeadValues

def info : PassInfo :=
  { name := "dead-node-removal", description := "delete unused value nodes" }

/-- Whether a node is a member, a value and without users. -/
def removable (g : Graph) (id : NodeId) : Bool :=
  g.isActive id && g.isA id .dependency && !g.isA id .sideEffect && (g.usages id).isEmpty

/-- Work off the stack, and count the deletions.  `bound` limits their number. -/
def removeAll (bound : Nat) (stack : List NodeId) (removed : Nat) : Edit Nat :=
  match stack with
  | [] => pure removed
  | id :: rest => fun g =>
    if !removable g id then removeAll bound rest removed g
    else
      match bound with
      | 0 => ⟨.ok removed, g, []⟩
      | bound + 1 =>
        (do
          Graph.delete id
          let later ← Run.state
          let freed := ((g.inputs id).filterMap fun input => input).filter (removable later)
          removeAll bound (freed.reverse ++ rest) (removed + 1)) g
termination_by (bound, stack.length)

/-- **Delete the values of a graph that nobody uses**, and answer how many there were. -/
def run : Edit Nat := do
  let g ← Run.state
  removeAll g.nodes.size (g.members.filter (removable g)).reverse 0

def pass : Pass Unit where
  info := info
  init := pure ()
  visitor :=
    { start := fun _ => do
        let removed ← Visiting.edit run
        let v ← Run.state
        if 0 < removed then
          Run.log .debug (v.definition.name ++ ": removed " ++ toString removed ++ " node(s), "
            ++ toString v.definition.behavior.size ++ " left")
        return .stop }

end DeadValues

end BehaviorGraph
