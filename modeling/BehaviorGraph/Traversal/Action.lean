/-
# Actions

What a traversal does with a node after looking at it, and why a traversal may end early.

A traversal that fails ends with an error, or it is halted.  A halt is not an error anyone reports
but the end of the whole run: a number did not fit into the 32 bits a width is held in, or somebody
looked at a node that does not exist.
-/
import BehaviorGraph.Graph.Redirect

namespace BehaviorGraph

/-- What ends a whole run. -/
inductive Halt where
  /-- A number did not fit. -/
  | overflow
  /-- The graph has no such node. -/
  | missingNode (id : NodeId)
deriving DecidableEq

/-- The wording of a halt. -/
def Halt.message : Halt → String
  | overflow => "a number does not fit"
  | missingNode id => "there is no node " ++ id.text

/-- Why a traversal ended early. -/
inductive Abort where
  | error (error : Error)
  | halt (reason : Halt)
deriving DecidableEq

/-- A fault of a graph operation ends a traversal as an internal error. -/
def Abort.ofFault (fault : Fault) : Abort := .error fault.toError

/-- A graph operation as part of a traversal. -/
def editing {α : Type} (edit : Edit α) : Run Abort Graph α := Run.mapFailure Abort.ofFault edit

/-- The payload of a node that has to exist. -/
def payloadOf (id : NodeId) : Run Abort Graph Payload := do
  let g ← Run.state
  match g.payload? id with
  | some payload => return payload
  | none => Run.fail (.halt (.missingNode id))

/-- What to do with a node. -/
inductive Action where
  /-- Keep it and go on. -/
  | proceed
  /-- Keep it and end the traversal of the graph. -/
  | stop
  /-- Replace it. -/
  | change (new : NodeId)
  /-- Delete it. -/
  | delete
deriving DecidableEq

namespace Action

/-- **Do it**, and answer whether the traversal goes on (`apply`).  Deleting a node that is deleted
already is no fault. -/
def perform (action : Action) (id : NodeId) : Run Abort Graph Bool :=
  match action with
  | proceed => pure true
  | stop => pure false
  | change new => do
    let new ← editing (Graph.replace id new)
    let g ← Run.state
    Run.log .trace (g.name ++ ": " ++ id.text ++ " changed to " ++ new.text)
    return true
  | delete => do
    let g ← Run.state
    match g.node? id with
    | some node => if node.isDeleted then pure () else editing (Graph.delete id)
    | none => editing (Graph.delete id)
    return true

end Action

end BehaviorGraph
