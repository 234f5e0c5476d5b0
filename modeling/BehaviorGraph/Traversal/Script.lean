/-
# Scripted actions, rules and visitors

Actions, rules and visitors that are given as data.  A scripted action is worked out on the graph
and the node at hand, a scripted rule adds a condition, and a scripted visitor, the recorder, notes
every hook it is called at and then does what the script says for that node.  They serve to try out
traversals without writing a pass.
-/
import BehaviorGraph.Traversal.Visitor

namespace BehaviorGraph

/-! ## 1. Actions -/

/-- An action to be worked out at a node. -/
inductive ScriptedAction where
  /-- An action as it is. -/
  | plain (action : Action)
  /-- Replace the node by a new one with its payload. -/
  | rebuild
  /-- Delete the node at once, and ask for its deletion. -/
  | deleteTwice
  /-- Delete another node if it is a member, and go on. -/
  | kill (other : NodeId)
  /-- Replace the node by one of its inputs, or go on if it has no such input. -/
  | input (position : Nat)
  /-- Replace the node by a new one. -/
  | new (payload : Payload)
  /-- Fail. -/
  | error (message : String)

/-- Work out an action at a node. -/
def ScriptedAction.work (action : ScriptedAction) (id : NodeId) : Run Abort Graph Action := do
  let g ← Run.state
  match action with
  | .plain action => return action
  | .rebuild =>
    let payload ← payloadOf id
    let new ← editing (Graph.create payload)
    return .change new
  | .deleteTwice =>
    editing (Graph.delete id)
    return .delete
  | .kill other =>
    if g.isActive other then editing (Graph.delete other)
    return .proceed
  | .input position =>
    let payload ← payloadOf id
    match payload.inputs[position]? with
    | some (some target) => return .change target
    | _ => return .proceed
  | .new payload =>
    let new ← editing (Graph.create payload)
    return .change new
  | .error message => Run.fail (.error (Error.other message))

/-- Work out an action at a node and perform it; the answer is whether to go on. -/
def ScriptedAction.perform (action : ScriptedAction) (id : NodeId) : Run Abort Graph Bool := do
  let action ← action.work id
  action.perform id

/-! ## 2. Rules -/

/-- What a node has to be like; what is not said does not matter. -/
structure Condition where
  /-- A call of this built-in. -/
  op : Option String := none
  /-- A read of this register. -/
  reg : Option String := none
  /-- An input at this position is the constant zero. -/
  zero : Option Nat := none

/-- Whether a payload is a call of a built-in. -/
def isCallOf (name : String) : Payload → Bool
  | .builtInCall _ op _ => decide (op.name = name)
  | _ => false

/-- Whether a payload is a read of a register. -/
def isReadOf (name : String) : Payload → Bool
  | .readReg reg _ => decide (reg = name)
  | _ => false

/-- Whether the input at a position is there and is the constant zero. -/
def readsZero (payload : Payload) (position : Nat) : Run Abort Graph Bool := do
  match payload.inputs[position]? with
  | some (some input) =>
    match ← payloadOf input with
    | .const c => return c.isZero
    | _ => return false
  | _ => return false

/-- Whether a node is as the condition says.  Inputs are looked at only if all else is right. -/
def Condition.holds (condition : Condition) (id : NodeId) : Run Abort Graph Bool := do
  let payload ← payloadOf id
  if condition.op.all (isCallOf · payload) && condition.reg.all (isReadOf · payload) then
    match condition.zero with
    | none => return true
    | some position => readsZero payload position
  else return false

/-- A rule with a condition and a scripted action. -/
def scriptedRule (name : String) (accepts : Filter) (condition : Condition)
    (action : ScriptedAction) : Rule where
  name := name
  accepts := accepts
  apply := fun id => do
    let holds ← condition.holds id
    if holds then action.work id else return .proceed

/-! ## 3. The recorder -/

/-- What the recorder does: at nodes, by identity or by kind, and before and after the nodes of a
definition, by name or for all of them under a star. -/
structure Script where
  actions : List (String × ScriptedAction) := []
  start : List (String × ScriptedAction) := []
  finish : List (String × ScriptedAction) := []
  precondition : Option String := none

/-- The first action under one of the keys, in the order of the keys. -/
def Script.pick (actions : List (String × ScriptedAction)) (keys : List String) : ScriptedAction :=
  (keys.findSome? fun key => actions.lookup key).getD (.plain .proceed)

/-- A script and the calls noted so far. -/
structure Recording where
  script : Script := {}
  seen : List String := []

/-- Which hooks a recorder has. -/
inductive HookSet where
  | node
  | coarse
  | fine
  | kind
  | plain
deriving DecidableEq

/-- The hooks of a set. -/
def HookSet.hooks : HookSet → List Hook
  | node => [.node]
  | coarse => [.control, .dependency]
  | fine => [.terminal, .blockEnd, .unique, .cast, .value, .sideEffect]
  | kind =>
    [.node, .kind .const, .kind .builtInCall, .kind .readReg, .kind .ret, .kind .branch,
      .kind .writeMem, .kind .binding]
  | plain => []

/-- The name under which a hook is noted. -/
def Hook.name : Hook → String
  | .kind k =>
    match k with
    | .start => "visit_start"
    | .blockStart => "visit_begin"
    | .branch => "visit_if"
    | .merge => "visit_merge"
    | .branchEnd => "visit_branch_end"
    | .ret => "visit_return"
    | .instrEnd => "visit_instr_end"
    | .procEnd => "visit_proc_end"
    | .const => "visit_const"
    | .param => "visit_func_param"
    | .field => "visit_field_ref"
    | .builtInCall => "visit_builtin_call"
    | .funcCall => "visit_func_call"
    | .select => "visit_select"
    | .slice => "visit_slice"
    | .binding => "visit_let"
    | .zeroExtend => "visit_zero_extend"
    | .signExtend => "visit_sign_extend"
    | .truncate => "visit_truncate"
    | .typeCast => "visit_type_cast"
    | .readReg => "visit_read_reg"
    | .readRegFile => "visit_read_reg_file"
    | .readMem => "visit_read_mem"
    | .writeReg => "visit_write_reg"
    | .writeRegFile => "visit_write_reg_file"
    | .writeMem => "visit_write_mem"
  | .terminal => "terminal"
  | .blockEnd => "block_end"
  | .control => "control"
  | .unique => "unique"
  | .cast => "cast"
  | .value => "value"
  | .sideEffect => "side_effect"
  | .dependency => "dependency"
  | .node => "node"

namespace Recording

/-- Note a call. -/
def note (text : String) : Visiting Recording Unit :=
  Visiting.remember fun r => { r with seen := r.seen ++ [text] }

/-- Note the call of a hook at a node, and work out what the script says. -/
def atNode (hook : Hook) (id : NodeId) : Visiting Recording Action := do
  let v ← Run.state
  let kind := ((v.definition.behavior.kind? id).map Kind.name).getD ""
  note (hook.name ++ " " ++ id.text ++ " " ++ kind)
  let action := Script.pick v.memory.script.actions [id.text, kind]
  Visiting.onGraph (action.work id)

/-- Note the call before or after the nodes of a definition, and work out what the script says, at
the first node of the arena. -/
def atDefinition (word : String) (actions : Script → List (String × ScriptedAction))
    (others : List Definition) : Visiting Recording Action := do
  let v ← Run.state
  let names := String.intercalate "," (others.map fun d => d.name)
  note (word ++ " " ++ v.definition.name ++ " [" ++ names ++ "]")
  let action := Script.pick (actions v.memory.script) [v.definition.name, "*"]
  Visiting.onGraph (action.work ⟨0⟩)

def info : PassInfo := { name := "recorder", description := "records hook calls" }

/-- The recorder with a set of hooks and orders to go by. -/
def visitor (hooks : HookSet) (nodeOrder : NodeOrder) (callOrder : CallOrder) :
    Visitor Recording where
  callOrder := callOrder
  nodeOrder := nodeOrder
  precondition := fun r _ => r.script.precondition
  start := atDefinition "start" Script.start
  hook := fun hook => if hook ∈ hooks.hooks then some fun _ id => atNode hook id else none
  finish := atDefinition "finish" Script.finish

/-- Run the recorder. -/
def visit (hooks : HookSet) (nodeOrder : NodeOrder) (callOrder : CallOrder) :
    Run Abort (PassState Recording) Unit :=
  let pass : Pass Recording :=
    { info := info, init := pure {}, visitor := visitor hooks nodeOrder callOrder }
  pass.visit

end Recording

/-! ## 4. Roll call -/

/-- Note a definition and the others, and fail at definitions of the given name. -/
def callDefinition (failing : Option String) (others : List Definition) :
    Run Error (VisitState (List String)) Unit := do
  let v ← Run.state
  let names := String.intercalate "," (others.map fun d => d.name)
  Run.put { v with memory := v.memory ++ [v.definition.name ++ " [" ++ names ++ "]"] }
  if some v.definition.name = failing then
    Run.fail (Error.other ("failed at " ++ v.definition.name))

/-- **Go through the definitions in an order and note each**, failing at those of the given name. -/
def rollCall (order : CallOrder) (failing : Option String) :
    Run Error (PassState (List String)) Unit :=
  updateAll id order (callDefinition failing)

end BehaviorGraph
