/-
# Call order

An order of definitions in which callees come before callers, or the other way round.  A definition
calls another if its behaviour has a call of that name; **where several definitions share a name the
call counts for the last of them**, and calls of unknown names do not count.

The three orders are the variants `No`, `Pre` and `Post` of `Order`, and the order of a context is
made by `schedule`.
-/
import BehaviorGraph.Definition

namespace BehaviorGraph

/-- In what order to go through the definitions of a context (`Order`). -/
inductive CallOrder where
  /-- As they are listed. -/
  | listed
  /-- Callers before callees. -/
  | callersFirst
  /-- Callees before callers. -/
  | calleesFirst
deriving DecidableEq

/-- The names a definition calls, one for each call. -/
def Definition.calls (d : Definition) : List String :=
  (d.behavior.membersOf (.exactly .funcCall)).filterMap fun id =>
    match d.behavior.payload? id with
    | some (.funcCall _ func _) => some func
    | _ => none

/-- The place of the last definition of a name. -/
def lastPlace? (definitions : List Definition) (name : String) : Option Nat :=
  (definitions.zipIdx.reverse.find? fun entry => decide (entry.1.name = name)).map Prod.snd

/-- The places of definitions and the edges from callees to callers. -/
def callGraph (definitions : List Definition) : Digraph Nat :=
  definitions.zipIdx.foldl
    (fun graph entry =>
      (entry.1.calls.filterMap (lastPlace? definitions)).foldl
        (fun graph callee => graph.addEdge callee entry.2) graph)
    { vertices := List.range definitions.length }

/-- **The places of the definitions in the wanted order** (`schedule`).  Only the listed order
exists when calls are recursive. -/
def schedule (definitions : List Definition) (order : CallOrder) : Except Error (List Nat) :=
  match order with
  | .listed => .ok (List.range definitions.length)
  | order =>
    match (callGraph definitions).order? with
    | .ok places => .ok (if order = .callersFirst then places.reverse else places)
    | .error place =>
      match definitions[place]? with
      | some d =>
        .error ((Error.malformedStructure ("function `" ++ d.name ++ "` is recursive")).locatedAt
          d.position)
      | none => .error (Error.malformedStructure "recursive calls")

end BehaviorGraph
