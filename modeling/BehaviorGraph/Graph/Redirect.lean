/-
# Redirecting edges

Two ways to make edges point elsewhere.  Replacing a node takes every edge that points to it and
then deletes the node.  Redirecting a node takes the edges that leave it, each to a target computed
from its present one.

New targets are attached on the way.  Replacing refuses a new node from which the old one can be
reached, since the moved edges would close a cycle; redirecting has no such check.

The operations are `replace_and_delete`, `apply_input_rewrite`, `apply_successor_rewrite` and
`replace_input`, and those of a `Rewriter`, the substitution of the last section.
-/
import BehaviorGraph.Graph.Edit

namespace BehaviorGraph

namespace Graph

/-! ## 1. Replacing a node -/

/-- Whether a node of kind `found` fits every slot of `user` that points to `old`. -/
def checkReplacement (g : Graph) (old : NodeId) (found : Kind) (user : NodeId) :
    Except Fault Unit :=
  match g.payload? user with
  | none => .ok ()
  | some payload =>
    payload.slots.forM fun slot =>
      if slot.target = some old && !found.isA slot.family then
        .error (.typeMismatch user slot.name slot.family found)
      else .ok ()

/-- Let every user of `old` use `new` instead, and hand the recorded edges over. -/
def redirect (g : Graph) (old new : NodeId) : Graph :=
  let swap (id : NodeId) : NodeId := if id = old then new else id
  let moved := g.usages old
  let g := (g.users old).foldl
    (fun g user => g.modify user fun node => { node with payload := node.payload.mapEdges swap }) g
  let g := g.modify old fun node => { node with usages := [] }
  g.modify new fun node => { node with usages := node.usages ++ moved }

/-- **Redirect every edge that points to `old` to `new`, then delete `old`**
(`replace_and_delete`).  The new node is attached first, and the answer is the member that stands
for it; if that is `old` itself nothing else happens. -/
def replace (old new : NodeId) : Edit NodeId := do
  let g ← Run.state
  Run.ofExcept (g.requireActive old)
  let new ← attach new
  if new = old then return old
  let g ← Run.state
  if g.reaches new old then Run.fail (.selfReplacement old new)
  match g.kind? new with
  | none => Run.fail (.unknownNode new)
  | some found =>
    Run.ofExcept ((g.users old).forM (g.checkReplacement old found))
    Run.update fun g => g.redirect old new
    Run.log .trace (g.name ++ ": replacing " ++ old.text ++ " with " ++ new.text)
    delete old
    return new

/-! ## 2. Redirecting the edges of a node -/

/-- Attach the targets that differ from those of their slots, one slot after the other. -/
def attachTargets : List (Slot × Option NodeId) → Edit (List (Option NodeId))
  | [] => return []
  | (slot, target) :: rest => do
    let target ←
      match target with
      | some id => if slot.target = some id then pure target else some <$> attach id
      | none => pure none
    let targets ← attachTargets rest
    return target :: targets

/-- Keep the usages in step with one slot that changes its target. -/
def moveUsage (owner : NodeId) (g : Graph) (change : Slot × Option NodeId) : Graph :=
  let (slot, target) := change
  if slot.target = target then g
  else
    let g :=
      match slot.target with
      | some old => g.removeUsage old owner
      | none => g
    match target with
    | some new => g.addUsage new owner
    | none => g

/-- Give the slots of a member new targets (`retarget`).  All changed targets are checked before
anything changes. -/
def retarget (owner : NodeId) (slots : List Slot) (targets : List (Option NodeId))
    (assign : List (Option NodeId) → Payload → Payload) : Edit Bool := do
  let g ← Run.state
  Run.ofExcept ((slots.zip targets).forM fun (slot, target) =>
    if slot.target = target then .ok () else g.checkSlot owner slot target)
  let resolved ← attachTargets (slots.zip targets)
  let changes := slots.zip resolved
  if changes.all fun (slot, target) => decide (slot.target = target) then return false
  Run.update fun g => changes.foldl (moveUsage owner) g
  Run.update fun g =>
    g.modify owner fun node => { node with payload := assign resolved node.payload }
  Run.log .trace (g.name ++ ": rewrote edges of " ++ owner.text)
  return true

/-- Redirect the edges of a member that `slots` shows and `assign` gives targets; the answer tells
whether one changed.  The new target of a slot may depend on its place among the slots as well as on
its present target. -/
def redirectAt (slots : Payload → List Slot) (assign : List (Option NodeId) → Payload → Payload)
    (owner : NodeId) (f : Nat → Option NodeId → Option NodeId) : Edit Bool := do
  let g ← Run.state
  Run.ofExcept (g.requireActive owner)
  match g.payload? owner with
  | none => return false
  | some payload =>
    retarget owner (slots payload) (((slots payload).map Slot.target).mapIdx f) assign

/-- Redirect the input edges of a member (`apply_input_rewrite`). -/
def redirectInputsAt : NodeId → (Nat → Option NodeId → Option NodeId) → Edit Bool :=
  redirectAt Payload.inputSlots Payload.assignInputs

/-- Redirect the input edges of a member by their present targets alone. -/
def redirectInputs (owner : NodeId) (f : Option NodeId → Option NodeId) : Edit Bool :=
  redirectInputsAt owner fun _ => f

/-- Redirect the successor edges of a member (`apply_successor_rewrite`). -/
def redirectSuccessorsAt : NodeId → (Nat → Option NodeId → Option NodeId) → Edit Bool :=
  redirectAt Payload.successorSlots Payload.assignSuccessors

/-- Redirect the successor edges of a member by their present targets alone. -/
def redirectSuccessors (owner : NodeId) (f : Option NodeId → Option NodeId) : Edit Bool :=
  redirectSuccessorsAt owner fun _ => f

/-- Let every input of `owner` that reads `old` read `new` (`replace_input`). -/
def replaceInput (owner old new : NodeId) : Edit Bool :=
  redirectInputs owner fun target => if target = some old then some new else target

end Graph

/-! ## 3. Substitutions -/

/-- Which nodes to use instead of others: by identity, and for references to parameters by name
(`Rewriter`). -/
structure Substitution where
  nodes : Table NodeId NodeId := Table.empty
  params : Table String NodeId := Table.empty

namespace Substitution

/-- What to use instead of a node.  **Its identity is tried before its name.** -/
def get? (s : Substitution) (g : Graph) (target : NodeId) : Option NodeId :=
  match s.nodes.get? target with
  | some new => some new
  | none =>
    match g.payload? target with
    | some (.param name _) => s.params.get? name
    | _ => none

/-- The substitution on the target of an edge. -/
def apply (s : Substitution) (g : Graph) (target : Option NodeId) : Option NodeId :=
  target.map fun id => (s.get? g id).getD id

/-- Redirect the inputs and then the successors of a member (`rewrite_node`). -/
def redirectNode (s : Substitution) (id : NodeId) : Edit Bool := do
  let g ← Run.state
  let inputs ← Graph.redirectInputs id (s.apply g)
  let g ← Run.state
  let successors ← Graph.redirectSuccessors id (s.apply g)
  return inputs || successors

/-- Redirect the edges of those of the given nodes that are members, and count the nodes that
changed. -/
def redirectAll (s : Substitution) : List NodeId → Edit Nat
  | [] => return 0
  | id :: rest => do
    let g ← Run.state
    let changed ← if g.isActive id then s.redirectNode id else pure false
    let count ← redirectAll s rest
    return if changed then count + 1 else count

/-- Redirect the edges of every member, and count the nodes that changed (`rewrite_graph`). -/
def redirectGraph (s : Substitution) : Edit Nat := do
  let g ← Run.state
  s.redirectAll g.members

end Substitution

end BehaviorGraph
