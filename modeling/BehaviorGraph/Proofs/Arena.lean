/-
# The arena under the operations that change single nodes

What every primitive change of a graph does to each node of the arena, as one equation for each
(`node?_modify`, `node?_push`, `node?_addUsages`, `node?_removeUsages`), and what it leaves alone.

**The members of a graph are a partial map from identities to payloads**, `Graph.member?`.  The
bookkeeping of a graph speaks about this map, so the second half restates the readings of a graph
in its terms.
-/
import Mathlib.Data.List.Count
import Mathlib.Logic.Function.Iterate
import BehaviorGraph.Graph.Copy
import BehaviorGraph.Graph.Redirect
import BehaviorGraph.Proofs.Slots

namespace BehaviorGraph

namespace Graph

variable (g : Graph) (id other user : NodeId)

/-! ## 1. One node changes -/

/-- Changing a node changes it and no other. -/
theorem node?_modify (f : Node → Node) :
    (g.modify id f).node? other = if other = id then (g.node? id).map f else g.node? other := by
  simp only [node?, modify, Array.getElem?_modify]
  by_cases h : other = id
  · simp [h]
  · have hindex : id.index ≠ other.index := fun he => h (by cases id; cases other; simp_all)
    simp [h, hindex]

@[simp] theorem node?_modify_self (f : Node → Node) :
    (g.modify id f).node? id = (g.node? id).map f := by
  rw [node?_modify, if_pos rfl]

theorem node?_modify_of_ne (f : Node → Node) {other : NodeId} (h : other ≠ id) :
    (g.modify id f).node? other = g.node? other := by
  rw [node?_modify, if_neg h]

@[simp] theorem size_modify (f : Node → Node) : (g.modify id f).nodes.size = g.nodes.size := by
  simp [modify]

@[simp] theorem pool_modify (f : Node → Node) : (g.modify id f).pool = g.pool := rfl

/-- A new node has the place at the end. -/
theorem node?_push (payload : Payload) :
    (g.push payload).node? other
      = if other.index = g.nodes.size then some { payload := payload } else g.node? other := by
  simp only [node?, push, Array.getElem?_push]

/-- There is a node at every place of the arena and at no other. -/
theorem node?_eq_none_iff : g.node? id = none ↔ g.nodes.size ≤ id.index := by
  simp [node?]

theorem lt_size_of_node? {node : Node} {g : Graph} {id : NodeId} (h : g.node? id = some node) :
    id.index < g.nodes.size := by
  by_contra hge
  rw [(g.node?_eq_none_iff id).mpr (by omega)] at h
  exact absurd h (by simp)

theorem exists_node?_of_lt {g : Graph} {id : NodeId} (h : id.index < g.nodes.size) :
    ∃ node, g.node? id = some node := by
  cases hnode : g.node? id with
  | some node => exact ⟨node, rfl⟩
  | none => exact absurd ((g.node?_eq_none_iff id).mp hnode) (Nat.not_le.mpr h)

/-! ## 2. Recorded edges -/

/-- **Each target learns of the user once for each edge**, behind what it knew. -/
theorem node?_addUsages (targets : List NodeId) :
    (g.addUsages user targets).node? id = (g.node? id).map fun node =>
      { node with usages := node.usages ++ List.replicate (targets.count id) user } := by
  induction targets generalizing g with
  | nil =>
    cases h : g.node? id <;> simp [addUsages, h]
  | cons target targets ih =>
    have hstep : g.addUsages user (target :: targets)
        = (g.addUsage target user).addUsages user targets := rfl
    rw [hstep, ih, addUsage, node?_modify]
    by_cases h : id = target
    · subst h
      cases hnode : g.node? id with
      | none => simp
      | some node =>
        simp [List.replicate_succ, List.count_cons_self]
    · have hcount : (target :: targets).count id = targets.count id :=
        List.count_cons_of_ne (Ne.symm h)
      rw [if_neg h, hcount]

/-- **Each target forgets the user once for each edge.** -/
theorem node?_removeUsages (targets : List NodeId) :
    (g.removeUsages user targets).node? id = (g.node? id).map fun node =>
      { node with usages := (fun users => users.erase user)^[targets.count id] node.usages } := by
  induction targets generalizing g with
  | nil =>
    cases h : g.node? id <;> simp [removeUsages, h]
  | cons target targets ih =>
    have hstep : g.removeUsages user (target :: targets)
        = (g.removeUsage target user).removeUsages user targets := rfl
    rw [hstep, ih, removeUsage, node?_modify]
    by_cases h : id = target
    · subst h
      cases hnode : g.node? id with
      | none => simp
      | some node => simp [List.count_cons_self, Function.iterate_succ_apply]
    · have hcount : (target :: targets).count id = targets.count id :=
        List.count_cons_of_ne (Ne.symm h)
      rw [if_neg h, hcount]

/-- Erasing one user several times takes that many of its entries and no others. -/
theorem count_iterate_erase (times : Nat) (users : List NodeId) :
    ((fun users => users.erase user)^[times] users).count other
      = if other = user then users.count other - times else users.count other := by
  induction times generalizing users with
  | zero => simp
  | succ times ih =>
    rw [Function.iterate_succ_apply, ih]
    by_cases h : other = user
    · subst h
      simp only [if_true, List.count_erase_self]
      omega
    · rw [if_neg h, if_neg h, List.count_erase_of_ne h]

@[simp] theorem pool_addUsages (targets : List NodeId) :
    (g.addUsages user targets).pool = g.pool := by
  induction targets generalizing g with
  | nil => rfl
  | cons target targets ih => exact ih (g.addUsage target user)

@[simp] theorem pool_removeUsages (targets : List NodeId) :
    (g.removeUsages user targets).pool = g.pool := by
  induction targets generalizing g with
  | nil => rfl
  | cons target targets ih => exact ih (g.removeUsage target user)

@[simp] theorem size_addUsages (targets : List NodeId) :
    (g.addUsages user targets).nodes.size = g.nodes.size := by
  induction targets generalizing g with
  | nil => rfl
  | cons target targets ih => exact (ih (g.addUsage target user)).trans (g.size_modify ..)

@[simp] theorem size_removeUsages (targets : List NodeId) :
    (g.removeUsages user targets).nodes.size = g.nodes.size := by
  induction targets generalizing g with
  | nil => rfl
  | cons target targets ih => exact (ih (g.removeUsage target user)).trans (g.size_modify ..)

/-! ## 3. Members -/

/-- **The payload of a member**; what is no member has none. -/
def member? (g : Graph) (id : NodeId) : Option Payload :=
  match g.node? id with
  | some node => if node.isActive then some node.payload else none
  | none => none

variable {g : Graph} {id : NodeId} {payload : Payload}

/-- A member is an active node of the arena. -/
theorem member?_eq_some_iff :
    g.member? id = some payload
      ↔ ∃ node, g.node? id = some node ∧ node.state = .active ∧ node.payload = payload := by
  unfold member?
  cases h : g.node? id with
  | none => simp
  | some node => simp [Node.isActive]

/-- Members stand in the arena. -/
theorem index_lt_size (h : g.member? id = some payload) : id.index < g.nodes.size := by
  obtain ⟨node, hnode, -, -⟩ := member?_eq_some_iff.mp h
  exact lt_size_of_node? hnode

/-- Whether a node is a member, by its state. -/
theorem member?_of_node? {node : Node} (h : g.node? id = some node) :
    g.member? id = if node.state = .active then some node.payload else none := by
  simp [member?, h, Node.isActive]

theorem member?_eq_none_of_node? {node : Node} (h : g.node? id = some node)
    (hstate : node.state ≠ .active) : g.member? id = none := by
  rw [member?_of_node? h, if_neg hstate]

/-- The reading the source has, in terms of the map of members. -/
theorem isActive_eq_isSome_member? (g : Graph) (id : NodeId) :
    g.isActive id = (g.member? id).isSome := by
  unfold isActive member?
  cases g.node? id with
  | none => rfl
  | some node => cases h : node.isActive <;> simp [h]

theorem isActive_iff : g.isActive id = true ↔ ∃ payload, g.member? id = some payload := by
  rw [isActive_eq_isSome_member?, Option.isSome_iff_exists]

theorem payload?_of_member? (h : g.member? id = some payload) : g.payload? id = some payload := by
  obtain ⟨node, hnode, -, rfl⟩ := member?_eq_some_iff.mp h
  simp [payload?, hnode]

theorem kind?_of_member? (h : g.member? id = some payload) : g.kind? id = some payload.kind := by
  obtain ⟨node, hnode, -, rfl⟩ := member?_eq_some_iff.mp h
  simp [kind?, hnode, Node.kind]

theorem isA_of_member? (h : g.member? id = some payload) (family : Family) :
    g.isA id family = payload.kind.isA family := by
  rw [isA, kind?_of_member? h]

theorem edges_of_member? (h : g.member? id = some payload) : g.edges id = payload.edges := by
  simp [edges, payload?_of_member? h]

/-- Usages make nobody a member. -/
@[simp] theorem member?_addUsages (user : NodeId) (targets : List NodeId) :
    (g.addUsages user targets).member? = g.member? := by
  funext other
  unfold member?
  rw [node?_addUsages]
  cases g.node? other <;> rfl

/-- A new node is no member. -/
theorem member?_push (payload : Payload) : (g.push payload).member? = g.member? := by
  funext other
  unfold member?
  rw [node?_push]
  by_cases h : other.index = g.nodes.size
  · have hnone : g.node? other = none := (g.node?_eq_none_iff other).mpr (by omega)
    simp [h, hnone, Node.isActive]
  · rw [if_neg h]

end Graph

end BehaviorGraph
