/-
# Checking graphs and definitions

A graph is consistent when its bookkeeping is right and every node observes the rules of its kind.
That much every transformation has to keep.  A graph is verified when in addition its control flow
is complete.  A definition adds rules of its own: functions have no side effects and return what
they declare, and references to parameters name declared ones.

Checks never stop at the first problem and never change anything.

The two questions asked of a graph are `verify` and `check_consistency`; `verify` is asked of
definitions too.
-/
import BehaviorGraph.Check.Edges
import BehaviorGraph.Check.Control
import BehaviorGraph.Check.Kinds
import BehaviorGraph.Definition

namespace BehaviorGraph

namespace Graph

/-- Everything that is wrong with a graph. -/
def verify (g : Graph) : Diagnostics :=
  g.checkEdges ++ g.checkUnique ++ g.checkTerminal ++ g.checkControlFlow ++ g.checkKinds

/-- Everything that is wrong with a graph, **however incomplete its control flow is**. -/
def checkConsistency (g : Graph) : Diagnostics := g.checkEdges ++ g.checkUnique ++ g.checkKinds

end Graph

namespace Definition

/-- A complaint about a definition. -/
def structureError (d : Definition) (message : String) : Error :=
  (Error.malformedStructure (d.role.name ++ " `" ++ d.name ++ "`: " ++ message)).locatedAt
    d.position

/-- A function has no side effects. -/
def purityErrors (d : Definition) : List Error :=
  (d.behavior.membersOf (.family .sideEffect)).map fun id =>
    let kind := ((d.behavior.kind? id).map Kind.name).getD ""
    d.structureError ("functions must be pure but " ++ id.text ++ " is a " ++ kind)

/-- A function returns values as wide as it declares. -/
def resultErrors (d : Definition) : List Error :=
  match d.result with
  | none => []
  | some declared =>
    (d.behavior.membersOf (.exactly .ret)).flatMap fun id =>
      match d.behavior.payload? id with
      | some (.ret value) =>
        match d.behavior.typeOf value with
        | some type =>
          if type.isTrivialCastTo declared then []
          else
            [d.structureError ("returns a " ++ type.text ++ " value but is declared to return "
              ++ declared.text)]
        | none => []
      | _ => []

/-- A reference to a parameter names a declared one and has its type. -/
def paramErrors (d : Definition) : List Error :=
  (d.behavior.membersOf (.exactly .param)).flatMap fun id =>
    match d.behavior.payload? id with
    | some (.param name type) =>
      match d.param? name with
      | none => [(Error.undefinedName name "parameter").locatedAt d.position]
      | some declared =>
        if declared.type = type then []
        else
          [d.structureError ("parameter `" ++ name ++ "` is declared as " ++ declared.type.text
            ++ " but used as " ++ type.text)]
    | _ => []

/-- Everything that is wrong with a definition and its behaviour. -/
def verify (d : Definition) : Diagnostics :=
  let functionErrors := if d.role = .function then d.purityErrors ++ d.resultErrors else []
  d.behavior.verify ++ .ofErrors (functionErrors ++ d.paramErrors)

end Definition

end BehaviorGraph
