/-
# Rules of single kinds

What a node of a certain kind has to observe by itself: conditions are one bit wide, branches start
and end as branches do, built-ins have the right number of arguments, and the widths of conversions
and choices fit their operands.  An operand whose type is not known is not complained about.
-/
import BehaviorGraph.Check.Report

namespace BehaviorGraph

namespace Graph

/-- The width of an operand if it is known and one of the widths that are wrong. -/
def badWidth? (g : Graph) (id : NodeId) (wrong : Nat → Bool) : Option Nat :=
  (g.widthOf id).filter wrong

/-- A condition has to be one bit wide (`check_condition`). -/
def conditionErrors (g : Graph) (id condition : NodeId) : List Error :=
  match g.badWidth? condition fun width => !decide (width = 1) with
  | none => []
  | some width =>
    [g.structureError ("condition of " ++ g.describe id ++ " must be one bit wide but "
      ++ g.describe condition ++ " has " ++ toString width ++ " bits")]

/-- A branch has to start with a node that starts branches. -/
def branchErrors (g : Graph) (id : NodeId) (target : Option NodeId) : List Error :=
  match target with
  | none => []
  | some target =>
    if g.kind? target = some .blockStart then []
    else
      [g.controlError ("branches of " ++ g.describe id ++ " must start with Begin, not "
        ++ g.describe target)]

/-- A merging node merges at least one branch, and ends of branches only. -/
def mergeErrors (g : Graph) (id : NodeId) (branchEnds : List NodeId) : List Error :=
  let missing :=
    if branchEnds.isEmpty then [g.controlError (g.describe id ++ " merges no branches")]
    else []
  missing ++ (branchEnds.filter fun target => !decide (g.kind? target = some .branchEnd)).map
    fun target =>
      g.controlError (g.describe id ++ " can only merge BranchEnd nodes, not " ++ g.describe target)

/-- A choice has two cases of its own width. -/
def caseErrors (g : Graph) (id : NodeId) (type : ValueType) (choice : NodeId) : List Error :=
  match g.badWidth? choice fun width => !decide (width = type.width) with
  | none => []
  | some width =>
    [g.structureError (g.describe id ++ " produces " ++ type.text ++ " but case "
      ++ g.describe choice ++ " has " ++ toString width ++ " bits")]

/-- A slice selects bits its operand has, and as many as its type says. -/
def sliceErrors (g : Graph) (id value : NodeId) (high low : Nat) (type : ValueType) :
    List Error :=
  let outOfRange := (g.badWidth? value fun width => decide (width ≤ high)).isSome
  if high < low || outOfRange then
    [g.structureError (g.describe id ++ " selects bits " ++ toString high ++ ".." ++ toString low
      ++ " out of range of " ++ g.describe value)]
  else
    let bits := high - low + 1
    if type.width = bits then []
    else
      [g.structureError (g.describe id ++ " produces " ++ type.text ++ " from " ++ toString bits
        ++ " bits")]

/-- An extension does not narrow. -/
def extensionErrors (g : Graph) (id value : NodeId) (type : ValueType) : List Error :=
  match g.badWidth? value fun width => decide (type.width < width) with
  | none => []
  | some width =>
    [g.structureError (g.describe id ++ " extends " ++ toString width ++ " bits to " ++ type.text)]

/-- A truncation does not widen. -/
def truncationErrors (g : Graph) (id value : NodeId) (type : ValueType) : List Error :=
  match g.badWidth? value fun width => decide (width < type.width) with
  | none => []
  | some width =>
    [g.structureError (g.describe id ++ " truncates " ++ toString width ++ " bits to "
      ++ type.text)]

/-- What is wrong with one member by the rules of its kind (`check_kinds`). -/
def kindErrors (g : Graph) (id : NodeId) : List Error :=
  match g.payload? id with
  | some (.branch condition trueBranch falseBranch) =>
    g.conditionErrors id condition ++ g.branchErrors id trueBranch ++ g.branchErrors id falseBranch
  | some (.merge branchEnds _) => g.mergeErrors id branchEnds
  | some (.builtInCall args op _) =>
    if args.length = op.arity then []
    else
      [g.structureError (g.describe id ++ " applies `" ++ op.name ++ "` to "
        ++ toString args.length ++ " arguments but it takes " ++ toString op.arity)]
  | some (.select condition trueCase falseCase type) =>
    g.conditionErrors id condition ++ g.caseErrors id type trueCase
      ++ g.caseErrors id type falseCase
  | some (.slice value high low type) => g.sliceErrors id value high low type
  | some (.zeroExtend value type) | some (.signExtend value type) => g.extensionErrors id value type
  | some (.truncate value type) => g.truncationErrors id value type
  | some (.writeReg _ (some condition) _) | some (.writeRegFile _ _ (some condition) _)
  | some (.writeMem _ _ (some condition) _ _) => g.conditionErrors id condition
  | _ => []

/-- **Every member observes the rules of its kind.** -/
def checkKinds (g : Graph) : Diagnostics := .ofErrors (g.members.flatMap g.kindErrors)

end Graph

end BehaviorGraph
