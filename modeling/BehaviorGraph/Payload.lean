/-
# Payloads and their edge slots

The payload of a node is its kind with the data and the edges that go with it.  Edges are of two
sorts: inputs, which say what a node reads, and successors, which say where control goes next.

To everything but the payload itself the edges of one sort are a list of slots in a fixed order.  A
slot has the name of the field it stands for, the family its target must belong to, and a target,
which only an optional slot may lack.  Reading the slots (`inputSlots`, `successorSlots`) and
overwriting their targets by position (`assignInputs`, `assignSuccessors`) are two sides of one
view: assigning never changes the number, names or families of the slots, nor any data.

Assigning is by position and forgiving.  A slot beyond the end of the given list keeps its target,
given targets beyond the slots are ignored, and `none` empties an optional slot but leaves a
required one alone.

Payloads are the `NodeKind`s, with a constructor for each kind.  Where the name of a kind says
little by itself, or is taken, the constructor has another: `binding` is `Let`, `branch` is `If`,
`blockStart` is `Begin`, `ret` is `Return`, `param` is `FuncParam` and `field` is `FieldRef`.
-/
import BehaviorGraph.BuiltIn
import BehaviorGraph.Kind

namespace BehaviorGraph

/-! ## 1. Identities and slots -/

/-- The identity of a node: its place in the arena of its graph. -/
structure NodeId where
  index : Nat
deriving DecidableEq

/-- The text of an identity: `n5`. -/
def NodeId.text (id : NodeId) : String := "n" ++ toString id.index

/-- The text of an identity in a list of users: `NodeId(5)`. -/
def NodeId.spelled (id : NodeId) : String := "NodeId(" ++ toString id.index ++ ")"

/-- One edge of a node, set or not. -/
structure Slot where
  /-- The field the slot stands for. -/
  name : String
  target : Option NodeId
  /-- Whether the target may be missing. -/
  optional : Bool
  /-- The family the target must belong to. -/
  family : Family
deriving DecidableEq

/-- A slot that must have a target. -/
def Slot.required (name : String) (family : Family) (target : NodeId) : Slot :=
  ⟨name, some target, false, family⟩

/-- A slot that may be empty. -/
def Slot.maybe (name : String) (family : Family) (target : Option NodeId) : Slot :=
  ⟨name, target, true, family⟩

/-! ## 2. Payloads -/

/-- What a node is: kind, edges and data (`NodeKind`). -/
inductive Payload where
  | start (next : Option NodeId)
  | blockStart (next : Option NodeId)
  | branch (condition : NodeId) (trueBranch falseBranch : Option NodeId)
  | merge (branchEnds : List NodeId) (next : Option NodeId)
  | branchEnd (sideEffects : List NodeId)
  | ret (value : NodeId)
  | instrEnd (sideEffects : List NodeId)
  | procEnd (sideEffects : List NodeId)
  | const (constant : Constant)
  | param (name : String) (type : ValueType)
  | field (name : String) (type : ValueType)
  | builtInCall (args : List NodeId) (op : BuiltIn) (type : ValueType)
  | funcCall (args : List NodeId) (func : String) (type : ValueType)
  | select (condition trueCase falseCase : NodeId) (type : ValueType)
  | slice (value : NodeId) (high low : Nat) (type : ValueType)
  | binding (value : NodeId) (name : String)
  | zeroExtend (value : NodeId) (type : ValueType)
  | signExtend (value : NodeId) (type : ValueType)
  | truncate (value : NodeId) (type : ValueType)
  | typeCast (value : NodeId) (type : ValueType)
  | readReg (reg : String) (type : ValueType)
  | readRegFile (index : NodeId) (file : String) (type : ValueType)
  | readMem (address : NodeId) (mem : String) (words : Nat) (type : ValueType)
  | writeReg (value : NodeId) (condition : Option NodeId) (reg : String)
  | writeRegFile (index value : NodeId) (condition : Option NodeId) (file : String)
  | writeMem (address value : NodeId) (condition : Option NodeId) (mem : String) (words : Nat)
deriving DecidableEq

namespace Payload

/-- The kind of a payload. -/
def kind : Payload → Kind
  | start .. => .start
  | blockStart .. => .blockStart
  | branch .. => .branch
  | merge .. => .merge
  | branchEnd .. => .branchEnd
  | ret .. => .ret
  | instrEnd .. => .instrEnd
  | procEnd .. => .procEnd
  | const .. => .const
  | param .. => .param
  | field .. => .field
  | builtInCall .. => .builtInCall
  | funcCall .. => .funcCall
  | select .. => .select
  | slice .. => .slice
  | binding .. => .binding
  | zeroExtend .. => .zeroExtend
  | signExtend .. => .signExtend
  | truncate .. => .truncate
  | typeCast .. => .typeCast
  | readReg .. => .readReg
  | readRegFile .. => .readRegFile
  | readMem .. => .readMem
  | writeReg .. => .writeReg
  | writeRegFile .. => .writeRegFile
  | writeMem .. => .writeMem

/-- The type of value a payload declares itself (`declared_type`).  A binding has the type of what
it names and declares none. -/
def declaredType : Payload → Option ValueType
  | const constant => some constant.type
  | param _ type | field _ type | builtInCall _ _ type | funcCall _ _ type | select _ _ _ type
  | slice _ _ _ type | zeroExtend _ type | signExtend _ type | truncate _ type | typeCast _ type
  | readReg _ type | readRegFile _ _ type | readMem _ _ _ type => some type
  | _ => none

/-! ## 3. Reading the slots -/

/-- The slots of what the node reads (`input_slots`). -/
def inputSlots : Payload → List Slot
  | start _ | blockStart _ | const _ | param _ _ | field _ _ | readReg _ _ => []
  | branch condition _ _ => [.required "condition" .value condition]
  | merge branchEnds _ => branchEnds.map (.required "branch_ends" .blockEnd)
  | branchEnd effects | instrEnd effects | procEnd effects =>
    effects.map (.required "side_effects" .sideEffect)
  | builtInCall args _ _ | funcCall args _ _ => args.map (.required "args" .value)
  | select condition trueCase falseCase _ =>
    [.required "condition" .value condition, .required "true_case" .value trueCase,
      .required "false_case" .value falseCase]
  | ret value | slice value _ _ _ | binding value _ | zeroExtend value _ | signExtend value _
  | truncate value _ | typeCast value _ => [.required "value" .value value]
  | readRegFile index _ _ => [.required "index" .value index]
  | readMem address _ _ _ => [.required "address" .value address]
  | writeReg value condition _ =>
    [.required "value" .value value, .maybe "condition" .value condition]
  | writeRegFile index value condition _ =>
    [.required "index" .value index, .required "value" .value value,
      .maybe "condition" .value condition]
  | writeMem address value condition _ _ =>
    [.required "address" .value address, .required "value" .value value,
      .maybe "condition" .value condition]

/-- The slots of where control goes next (`successor_slots`). -/
def successorSlots : Payload → List Slot
  | start next | blockStart next | merge _ next => [.maybe "next" .control next]
  | branch _ trueBranch falseBranch =>
    [.maybe "true_branch" .control trueBranch, .maybe "false_branch" .control falseBranch]
  | _ => []

/-- All slots, inputs first. -/
def slots (payload : Payload) : List Slot := payload.inputSlots ++ payload.successorSlots

/-- The targets of the input slots, in order. -/
def inputs (payload : Payload) : List (Option NodeId) := payload.inputSlots.map Slot.target

/-- The targets of the successor slots, in order. -/
def successors (payload : Payload) : List (Option NodeId) := payload.successorSlots.map Slot.target

/-- **Every target that is set, once for each edge**, inputs first. -/
def edges (payload : Payload) : List NodeId := payload.slots.filterMap Slot.target

/-- The targets of the input slots that are set. -/
def inputEdges (payload : Payload) : List NodeId := payload.inputSlots.filterMap Slot.target

/-! ## 4. Assigning targets by position -/

/-- The target of a required slot at a position of the given list. -/
def assignRequired (given : List (Option NodeId)) (position : Nat) (old : NodeId) : NodeId :=
  match given[position]? with
  | some (some target) => target
  | _ => old

/-- The target of an optional slot at a position of the given list. -/
def assignOptional (given : List (Option NodeId)) (position : Nat) (old : Option NodeId) :
    Option NodeId :=
  match given[position]? with
  | some target => target
  | none => old

/-- The targets of a list of required slots, the first of which takes the first given target. -/
def assignList : List (Option NodeId) → List NodeId → List NodeId
  | _, [] => []
  | [], targets => targets
  | given :: rest, old :: targets => given.getD old :: assignList rest targets

/-- Overwrite the targets of the input slots (`assign_inputs`). -/
def assignInputs (given : List (Option NodeId)) : Payload → Payload
  | branch condition trueBranch falseBranch =>
    branch (assignRequired given 0 condition) trueBranch falseBranch
  | merge branchEnds next => merge (assignList given branchEnds) next
  | branchEnd effects => branchEnd (assignList given effects)
  | ret value => ret (assignRequired given 0 value)
  | instrEnd effects => instrEnd (assignList given effects)
  | procEnd effects => procEnd (assignList given effects)
  | builtInCall args op type => builtInCall (assignList given args) op type
  | funcCall args func type => funcCall (assignList given args) func type
  | select condition trueCase falseCase type =>
    select (assignRequired given 0 condition) (assignRequired given 1 trueCase)
      (assignRequired given 2 falseCase) type
  | slice value high low type => slice (assignRequired given 0 value) high low type
  | binding value name => binding (assignRequired given 0 value) name
  | zeroExtend value type => zeroExtend (assignRequired given 0 value) type
  | signExtend value type => signExtend (assignRequired given 0 value) type
  | truncate value type => truncate (assignRequired given 0 value) type
  | typeCast value type => typeCast (assignRequired given 0 value) type
  | readRegFile index file type => readRegFile (assignRequired given 0 index) file type
  | readMem address mem words type => readMem (assignRequired given 0 address) mem words type
  | writeReg value condition reg =>
    writeReg (assignRequired given 0 value) (assignOptional given 1 condition) reg
  | writeRegFile index value condition file =>
    writeRegFile (assignRequired given 0 index) (assignRequired given 1 value)
      (assignOptional given 2 condition) file
  | writeMem address value condition mem words =>
    writeMem (assignRequired given 0 address) (assignRequired given 1 value)
      (assignOptional given 2 condition) mem words
  | payload => payload

/-- Overwrite the targets of the successor slots (`assign_successors`). -/
def assignSuccessors (given : List (Option NodeId)) : Payload → Payload
  | start next => start (assignOptional given 0 next)
  | blockStart next => blockStart (assignOptional given 0 next)
  | branch condition trueBranch falseBranch =>
    branch condition (assignOptional given 0 trueBranch) (assignOptional given 1 falseBranch)
  | merge branchEnds next => merge branchEnds (assignOptional given 0 next)
  | payload => payload

/-- Empty every successor slot. -/
def clearSuccessors (payload : Payload) : Payload :=
  payload.assignSuccessors (payload.successors.map fun _ => none)

/-- Send every target that is set through `f`; empty slots stay empty. -/
def mapEdges (f : NodeId → NodeId) (payload : Payload) : Payload :=
  (payload.assignInputs (payload.inputs.map (Option.map f))).assignSuccessors
    (payload.successors.map (Option.map f))

end Payload

end BehaviorGraph
