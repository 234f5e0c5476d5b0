/-
# Rule sets

A rule looks at a node of certain kinds and answers with an action; the answer `proceed` means that
the rule has nothing to say.  A rule set asks its rules in order and takes the first answer that is
another.

A rule set is run on a graph by sweeps over its members, until a sweep changes nothing.  Nothing in
the rules themselves makes that end, so the number of sweeps is limited by the caller.

A rule is a `NodeRule`, and a list of rules a `RuleSet`.
-/
import BehaviorGraph.Traversal.Action

namespace BehaviorGraph

/-- What to do with single nodes (`NodeRule`). -/
structure Rule where
  name : String
  /-- The nodes the rule looks at. -/
  accepts : Filter
  apply : NodeId → Run Abort Graph Action

namespace Rule

/-- **The first answer of the rules that look at a node.**  The action is not performed. -/
def firstAnswer (id : NodeId) (kind : Kind) : List Rule → Run Abort Graph Action
  | [] => return .proceed
  | rule :: rest =>
    if rule.accepts.admits kind then do
      let action ← rule.apply id
      if action = .proceed then firstAnswer id kind rest
      else
        let g ← Run.state
        Run.log .trace (g.name ++ ": rule `" ++ rule.name ++ "` fired on " ++ id.text)
        return action
    else firstAnswer id kind rest

/-- The first answer for a node, which has to exist (`visit`). -/
def visit (rules : List Rule) (id : NodeId) : Run Abort Graph Action := do
  let payload ← payloadOf id
  firstAnswer id payload.kind rules

/-- Carry out the answer for a node; the result tells whether it was a change.  **Replacing a node
by itself is none.** -/
def carryOut (action : Action) (id : NodeId) : Run Abort Graph Bool :=
  match action with
  | .change new => do
    let new ← editing (Graph.replace id new)
    return !decide (new = id)
  | .delete => Action.delete.perform id
  | .proceed | .stop => return false

/-- The result of a sweep. -/
structure Sweep where
  /-- Whether a rule ended it. -/
  stopped : Bool
  /-- The number of changes so far. -/
  changes : Nat

/-- Ask the rules about each node that is still a member. -/
def sweep (rules : List Rule) (changes : Nat) : List NodeId → Run Abort Graph Sweep
  | [] => return ⟨false, changes⟩
  | id :: rest => do
    let g ← Run.state
    if !g.isActive id then sweep rules changes rest
    else
      let action ← visit rules id
      if action = .stop then return ⟨true, changes⟩
      else
        let changed ← carryOut action id
        sweep rules (if changed then changes + 1 else changes) rest

/-- Sweep until nothing changes, a rule ends it or the limit is reached; the number of changes, or
`none` in the last case. -/
def sweeps (rules : List Rule) : (limit changes : Nat) → Run Abort Graph (Option Nat)
  | 0, _ => return none
  | limit + 1, changes => do
    let g ← Run.state
    let result ← sweep rules changes g.members
    if result.stopped then
      Run.log .debug (g.name ++ ": rules stopped after " ++ toString result.changes
        ++ " rewrite(s)")
      return some result.changes
    else if result.changes = changes then return some changes
    else sweeps rules limit result.changes

/-- Run a rule set on a graph (`run`). -/
def run (rules : List Rule) (limit : Nat) : Run Abort Graph (Option Nat) := sweeps rules limit 0

end Rule

end BehaviorGraph
