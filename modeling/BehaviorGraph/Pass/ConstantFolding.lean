/-
# Constant folding

Operations on constants are replaced by the constant they yield, and a choice with a constant
condition by the case it chooses.  Constants are seen through bindings.  Nodes are visited in
dataflow order, so that the operands of an operation are folded before the operation is looked at.

This is the pass `constant-folding`: `fold` and `fold_unary`, and the hooks that use them.
-/
import BehaviorGraph.Traversal.Visitor

namespace BehaviorGraph

namespace ConstantFolding

def info : PassInfo :=
  { name := "constant-folding", description := "evaluate operations on constant inputs" }

/-! ## 1. What operations yield on constants -/

/-- A value padded with zeros is read without its sign first. -/
def zeroExtend (c : Constant) (type : ValueType) : Constant :=
  (c.castTo (.uint c.type.width)).castTo type

/-- A value padded with its sign is read with the sign first. -/
def signExtend (c : Constant) (type : ValueType) : Constant :=
  (c.castTo (.sint c.type.width)).castTo type

/-- A cast to a truth value compares with zero; every other cast reads the value as it is. -/
def convert (c : Constant) (type : ValueType) : Constant :=
  if type = .bool then Constant.ofBool (!c.isZero) else c.castTo type

/-- What becomes of a node: nothing, a constant, or a node that is there already. -/
inductive Fold where
  | keep
  | constant (c : Constant)
  | node (id : NodeId)

/-- Nothing becomes of a node without a constant. -/
def Fold.ofConstant? : Option Constant → Fold
  | some c => .constant c
  | none => .keep

/-- **What becomes of a payload**, given the constants of a graph; `none` if a slice does not fit.
-/
def foldPayload (g : Graph) : Payload → Option Fold
  | .builtInCall args op type =>
    some (.ofConstant? ((args.mapM g.constantOf).bind fun values => op.eval values type))
  | .select condition trueCase falseCase _ =>
    match g.constantOf condition with
    | some c => some (.node (if c.isZero then falseCase else trueCase))
    | none => some .keep
  | .slice value high low type =>
    match g.constantOf value with
    | some c => (c.slice? high low type).map .constant
    | none => some .keep
  | .zeroExtend value type =>
    some (.ofConstant? ((g.constantOf value).map fun c => zeroExtend c type))
  | .signExtend value type =>
    some (.ofConstant? ((g.constantOf value).map fun c => signExtend c type))
  | .truncate value type => some (.ofConstant? ((g.constantOf value).map fun c => c.castTo type))
  | .typeCast value type => some (.ofConstant? ((g.constantOf value).map fun c => convert c type))
  | _ => some .keep

/-! ## 2. The pass -/

/-- Fold a node.  The memory counts the nodes folded in the definition. -/
def visit (id : NodeId) : Visiting Nat Action := do
  let g ← Visiting.graph
  match (g.payload? id).map (foldPayload g) with
  | none => return .proceed
  | some none => Run.fail (.halt .overflow)
  | some (some .keep) => return .proceed
  | some (some (.node chosen)) =>
    Visiting.remember (· + 1)
    return .change chosen
  | some (some (.constant c)) =>
    Visiting.remember (· + 1)
    let new ← Visiting.edit (Graph.add (.const c))
    return .change new

/-- The kinds of nodes that can be folded. -/
def foldable : List Kind :=
  [.builtInCall, .select, .slice, .zeroExtend, .signExtend, .truncate, .typeCast]

def pass : Pass Nat where
  info := info
  init := pure 0
  visitor :=
    { nodeOrder := .dataflow
      hook := fun
        | .kind kind => if kind ∈ foldable then some fun _ id => visit id else none
        | _ => none
      finish := fun _ => do
        let v ← Run.state
        if 0 < v.memory then
          Run.log .debug (v.definition.name ++ ": folded " ++ toString v.memory ++ " node(s)")
        return .proceed
      clear := fun _ => 0 }

end ConstantFolding

end BehaviorGraph
