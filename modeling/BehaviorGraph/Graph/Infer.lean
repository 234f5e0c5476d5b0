/-
# Payloads with inferred types

When a graph is built by hand, the type of an operation usually follows from its operands.  The
functions here make the payloads whose type is inferred; a node is then created with `Graph.add`.

An operand without a type counts as a truth value.  No such node can be an operand in the end: it is
refused when the operation is attached.

These are the methods of the `Builder` that infer a type; its other methods only name a payload.
-/
import BehaviorGraph.Graph.Redirect

namespace BehaviorGraph

namespace Graph

/-- The type of an operand. -/
def operandType (g : Graph) (id : NodeId) : ValueType := (g.typeOf id).getD .bool

/-- A built-in applied to operands (`builtin`).  A comparison yields a truth value, everything else
a value of the type of the first operand. -/
def inferBuiltIn (g : Graph) (op : BuiltIn) (args : List NodeId) : Payload :=
  let type : ValueType :=
    if op.isComparison then .bool
    else
      match args with
      | [] => .bool
      | first :: _ => g.operandType first
  .builtInCall args op type

/-- A choice between two values has the type of the first (`select`). -/
def inferSelect (g : Graph) (condition trueCase falseCase : NodeId) : Payload :=
  .select condition trueCase falseCase (g.operandType trueCase)

/-- Bits `high` down to `low` of a value, read like the value itself (`slice`).  There is no such
payload if the number of bits does not fit (`Constant.sliceWidth?`). -/
def inferSlice? (g : Graph) (value : NodeId) (high low : Nat) : Option Payload := do
  let width ← Constant.sliceWidth? high low
  return .slice value high low ((g.operandType value).withWidth width)

/-- Let control go from `source` to `target` wherever `source` has no successor yet (`link`). -/
def link (source target : NodeId) : Edit Bool := do
  Run.log .trace ("linking " ++ source.text ++ " -> " ++ target.text)
  redirectSuccessors source fun successor => successor.or (some target)

end Graph

end BehaviorGraph
