/-
# Inlining of functions

A call is replaced by a copy of the value its callee returns, in which the arguments of the call
take the place of the callee's parameters.  Only functions without side effects and with one return
are inlined, and only up to a number of nodes that can be set.  Callees are visited before their
callers, so a copy brings no calls with it that could have been inlined.

This is the pass `function-inliner`: `inlinable` decides whether a call is inlined, and
`visit_func_call` does it.
-/
import BehaviorGraph.Traversal.Visitor
import BehaviorGraph.Graph.Copy

namespace BehaviorGraph

namespace Inlining

/-- The option that limits the size of callees. -/
def maxNodes : PassOption where
  name := "max-nodes"
  description :=
    "inline only functions with at most this many nodes. Negative values remove the limit"
  default := .num 256
  parse := OptionValue.parseNum

def info : PassInfo :=
  { name := "function-inliner"
    description := "inline calls of pure functions"
    options := [maxNodes] }

/-- What the pass keeps in mind. -/
structure Memory where
  /-- The largest callee to inline, if there is a limit. -/
  limit : Option Nat
  /-- The number of calls inlined in the definition. -/
  inlined : Nat

/-- The argument for each reference to a parameter, or `none` if a parameter is not declared.  **The
first declaration of a name counts.** -/
def bindParams (callee : Definition) (args : List NodeId) :
    List NodeId → Option (Table NodeId NodeId)
  | [] => some Table.empty
  | id :: rest =>
    match callee.behavior.payload? id with
    | some (.param name _) => do
      let place ← callee.params.findIdx? fun param => decide (param.name = name)
      let arg ← args[place]?
      let table ← bindParams callee args rest
      return table.insert id arg
    | _ => bindParams callee args rest

/-- The form of a callee that can be inlined: a function that takes this many arguments and has no
side effects. -/
def hasForm (callee : Definition) (args : List NodeId) : Bool :=
  decide (callee.role = .function) && decide (callee.params.length = args.length)
    && (callee.behavior.membersOf (.family .sideEffect)).isEmpty

/-- Whether a callee is larger than the limit. -/
def exceeds (limit : Option Nat) (callee : Definition) : Bool :=
  match limit with
  | some limit => decide (limit < callee.behavior.size)
  | none => false

/-- The value a callee returns, and the arguments in place of its parameters. -/
def returned (callee : Definition) (args : List NodeId) :
    Option (NodeId × Table NodeId NodeId) := do
  let ret ← callee.behavior.single? (.exactly .ret)
  match callee.behavior.payload? ret with
  | some (.ret value) =>
    let table ← bindParams callee args (callee.behavior.membersOf (.exactly .param))
    return (value, table)
  | _ => none

/-- **The value a callee returns, if it can be inlined**, with the arguments in place of its
parameters (`inlinable`). -/
def inlinable (limit : Option Nat) (callee : Definition) (args : List NodeId) :
    Visiting Memory (Option (NodeId × Table NodeId NodeId)) := do
  if !hasForm callee args then return none
  if exceeds limit callee then
    Run.log .debug ("not inlining `" ++ callee.name ++ "`: " ++ toString callee.behavior.size
      ++ " nodes")
    return none
  return returned callee args

/-- Copy a value of a callee into the graph of the caller. -/
def copyIn (callee : Definition) (value : NodeId) (table : Table NodeId NodeId) :
    Visiting Memory NodeId :=
  Run.within (fun v => (⟨v.definition.behavior, table⟩ : Graph.Transfer))
    (fun t v => { v with definition := { v.definition with behavior := t.target } })
    Abort.ofFault (Graph.copyInto callee.behavior value)

/-- Inline a call (`visit_func_call`). -/
def visit (others : List Definition) (id : NodeId) : Visiting Memory Action := do
  let v ← Run.state
  match v.definition.behavior.payload? id with
  | some (.funcCall args func _) =>
    match others.find? fun d => decide (d.name = func) with
    | none => return .proceed
    | some callee =>
      match ← inlinable v.memory.limit callee args with
      | none => return .proceed
      | some (value, table) =>
        let copy ← copyIn callee value table
        Visiting.remember fun m => { m with inlined := m.inlined + 1 }
        return .change copy
  | _ => return .proceed

/-- The memory to start with: the limit is what the option says. -/
def init : Run Abort Context Memory := do
  let context ← Run.state
  let values ← info.resolve context.options
  let value := (values.get? maxNodes.name).getD maxNodes.default
  let limit ← Run.ofExcept (value.toLimit.mapError Abort.error)
  return ⟨limit, 0⟩

def pass : Pass Memory where
  info := info
  init := init
  visitor :=
    { callOrder := .calleesFirst
      hook := fun
        | .kind .funcCall => some visit
        | _ => none
      finish := fun _ => do
        let v ← Run.state
        if 0 < v.memory.inlined then
          Run.log .debug (v.definition.name ++ ": inlined " ++ toString v.memory.inlined
            ++ " call(s)")
        return .proceed
      clear := fun m => { m with inlined := 0 } }

end Inlining

end BehaviorGraph
