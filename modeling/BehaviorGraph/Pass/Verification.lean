/-
# Verification as a pass

Every definition is checked by itself, and its calls against the definitions they name.  Nothing is
changed; what is found is collected.

This is the pass `verify`, with `check_calls` for the calls.
-/
import BehaviorGraph.Traversal.Visitor
import BehaviorGraph.Check

namespace BehaviorGraph

namespace Verification

def info : PassInfo :=
  { name := "verify", description := "Check that behavior graphs are well formed." }

/-- What is wrong with the arguments of a call. -/
def argumentErrors (d callee : Definition) (args : List NodeId) : List Error :=
  (callee.params.zip args).filterMap fun (param, arg) =>
    match d.behavior.typeOf arg with
    | some type =>
      if type.isTrivialCastTo param.type then none
      else
        some (d.structureError ("argument `" ++ param.name ++ "` of `" ++ callee.name
          ++ "` expects "
          ++ param.type.text ++ " but got " ++ type.text))
    | none => none

/-- A call that reads the result at another width is remarked upon. -/
def resultRemarks (d callee : Definition) (id : NodeId) (type : ValueType) : List Error :=
  match callee.result with
  | some result =>
    if result.isTrivialCastTo type then []
    else
      [d.structureError (id.text ++ " reads `" ++ callee.name ++ "` as " ++ type.text
        ++ " but it returns " ++ result.text)]
  | none => []

/-- What is wrong with one call.  **A call names the first other definition of that name**, which
has to be a function with as many parameters as there are arguments. -/
def checkCall (d : Definition) (others : List Definition) (id : NodeId) (args : List NodeId)
    (func : String) (type : ValueType) : Diagnostics :=
  match others.find? fun other => decide (other.name = func) with
  | none =>
    if func = d.name then
      .ofErrors [d.structureError ("function `" ++ func ++ "` calls itself")]
    else .ofErrors [(Error.undefinedName func "function").locatedAt d.position]
  | some callee =>
    if callee.role ≠ .function then
      .ofErrors [d.structureError ("`" ++ callee.name ++ "` is a " ++ callee.role.name
        ++ ", not a function")]
    else if callee.params.length ≠ args.length then
      .ofErrors [d.structureError ("`" ++ callee.name ++ "` takes "
        ++ toString callee.params.length ++ " argument(s) but " ++ id.text ++ " passes "
        ++ toString args.length)]
    else
      { errors := argumentErrors d callee args
        warnings := resultRemarks d callee id type }

/-- What is wrong with the calls of a definition (`check_calls`). -/
def checkCalls (d : Definition) (others : List Definition) : Diagnostics :=
  (d.behavior.membersOf (.exactly .funcCall)).foldl
    (fun found id =>
      match d.behavior.payload? id with
      | some (.funcCall args func type) => found ++ checkCall d others id args func type
      | _ => found)
    .empty

/-- The pass.  Its memory is everything found so far. -/
def pass : Pass Diagnostics where
  info := info
  init := pure .empty
  visitor :=
    { start := fun others => do
        let v ← Run.state
        Visiting.remember fun found =>
          found ++ v.definition.verify ++ checkCalls v.definition others
        return .stop }

end Verification

end BehaviorGraph
