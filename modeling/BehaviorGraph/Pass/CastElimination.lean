/-
# Elimination of type casts

A type cast is replaced by the operation it stands for: nothing at all between types of one width, a
comparison with zero to a truth value, a truncation to a narrower type and an extension to a wider
one.  Four rules, tried in this order, cover every cast whose operand has a type.

This is the pass `type-cast-elimination`, with its rules `SameWidth`, `ToBool`, `Narrow` and
`Widen`.
-/
import BehaviorGraph.Traversal.Visitor

namespace BehaviorGraph

namespace CastElimination

def info : PassInfo :=
  { name := "type-cast-elimination"
    description := "replace type casts with extensions, truncations and comparisons" }

/-! ## 1. Rules -/

/-- The operand of a cast, its type, and the type it is cast to (`cast_types`). -/
def castTypes (g : Graph) (id : NodeId) : Option (NodeId × ValueType × ValueType) :=
  match g.payload? id with
  | some (.typeCast value target) => (g.typeOf value).map fun source => (value, source, target)
  | _ => none

/-- A rule for casts, from the operand, its type and the wanted type. -/
def castRule (name : String)
    (answer : NodeId → ValueType → ValueType → Option (Run Abort Graph Action)) : Rule where
  name := name
  accepts := .exactly .typeCast
  apply := fun id => do
    let g ← Run.state
    match (castTypes g id).bind fun (value, source, target) => answer value source target with
    | some answer => answer
    | none => return .proceed

/-- The node is to be replaced by a new one, which is not attached yet. -/
def changeTo (payload : Payload) : Run Abort Graph Action := do
  let new ← editing (Graph.create payload)
  return .change new

/-- Between types of one width the bits stay as they are. -/
def sameWidth : Rule := castRule "same-width" fun value source target =>
  if source.isTrivialCastTo target then some (pure (.change value)) else none

/-- A truth value tells whether the operand is not zero. -/
def toBool : Rule := castRule "to-bool" fun value source target =>
  if target = .bool then
    some do
      let zero ← editing (Graph.add (.const (Constant.ofInt 0 source)))
      changeTo (.builtInCall [value, zero] .neq .bool)
  else none

/-- A narrower type keeps the low bits. -/
def narrow : Rule := castRule "narrow" fun value source target =>
  if target.width < source.width then some (changeTo (.truncate value target)) else none

/-- A wider type repeats the sign of a signed operand, and is filled with zeros otherwise. -/
def widen : Rule := castRule "widen" fun value source target =>
  if source.width < target.width then
    some (changeTo (if source.isSigned then .signExtend value target else .zeroExtend value target))
  else none

/-- The rules, in the order in which they are tried. -/
def rules : List Rule := [sameWidth, toBool, narrow, widen]

/-! ## 2. The pass -/

/-- Eliminate a cast.  A cast no rule has an answer for is an error. -/
def visit (id : NodeId) : Visiting Unit Action := do
  let before ← Visiting.graph
  let action ← Visiting.onGraph (Rule.visit rules id)
  match action, before.payload? id with
  | .proceed, some (.typeCast value type) =>
    let g ← Visiting.graph
    let message := "cannot eliminate the cast of " ++ value.text ++ " to " ++ type.text
      ++ ": its input has no type"
    Run.fail (.error ((Error.passAssumption info.name message).locatedAt g.position))
  | action, _ => return action

def pass : Pass Unit where
  info := info
  init := pure ()
  visitor :=
    { hook := fun
        | .kind .typeCast => some fun _ id => visit id
        | _ => none }

/-- **No definition has a cast left**, or an error that names the first (`casts_eliminated`). -/
def eliminated (context : Context) : Except Error Unit :=
  context.definitions.forM fun d =>
    match d.behavior.membersOf (.exactly .typeCast) with
    | [] => .ok ()
    | id :: _ =>
      .error ((Error.passAssumption info.name
        (id.text ++ " in `" ++ d.name ++ "` is still a type cast")).locatedAt d.position)

end CastElimination

end BehaviorGraph
