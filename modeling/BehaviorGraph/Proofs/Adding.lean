/-
# Attaching a new node

A node that was just created has no users, and if its slots are filled by members there is nothing
below it to attach either.  Attaching it is then a single step: **the node becomes a member and
everything else stays as it is** (`attach_push`), unless it is unique and a member has its payload
already.  In that case the answer is that member and no member changes at all.
-/
import BehaviorGraph.Proofs.Attaching

namespace BehaviorGraph

namespace Graph

variable {g : Graph} {id : NodeId} {payload : Payload} {path : List NodeId}

/-! ## 1. Members on the way -/

namespace Attachment

variable {rest : List (Task NodeId)}

/-- Entering a member has nothing to do. -/
theorem enter_of_isActive (h : g.isActive id = true) :
    (⟨g, path, Table.empty⟩ : Attachment).enter id = .ok none := by
  obtain ⟨payload, hmember⟩ := isActive_iff.mp h
  obtain ⟨node, hnode, hstate, -⟩ := member?_eq_some_iff.mp hmember
  simp [enter, Table.contains, Table.get?_empty, Graph.node, hnode, hstate, bind, Except.bind, pure,
    Except.pure]

/-- A walk passes by members. -/
theorem walk_skip_members (bound : Nat) {targets : List NodeId}
    (h : ∀ target ∈ targets, g.isActive target = true) :
    walk bound (targets.map .enter ++ rest) ⟨g, path, Table.empty⟩
      = walk bound rest ⟨g, path, Table.empty⟩ := by
  induction targets with
  | nil => rfl
  | cons target targets ih =>
    rw [List.map_cons, List.cons_append, walk]
    simp only [enter_of_isActive (h target (by simp))]
    exact ih fun other hother => h other (List.mem_cons_of_mem target hother)

/-- Giving up a node that is no member changes no member. -/
theorem member?_discard {a : Attachment} {node : Node} (hnode : a.graph.node? id = some node)
    (hstate : node.state ≠ .active) (member : NodeId) :
    (a.discard id member).graph.member? = a.graph.member? := by
  funext other
  by_cases hother : other = id
  · subst hother
    have hnode' : (a.discard other member).graph.node? other
        = some { node with state := .deleted } := by
      simp [discard, hnode]
    rw [member?_eq_none_of_node? hnode' (by simp), member?_eq_none_of_node? hnode hstate]
  · simp only [member?, discard, node?_modify_of_ne _ _ _ hother]

end Attachment

/-- A member stands for itself. -/
theorem attach_of_isActive (h : g.isActive id = true) :
    (attach id g).result = .ok id ∧ (attach id g).state = g := by
  have hwalk : Attachment.walk g.nodes.size [.enter id] ⟨g, [], Table.empty⟩
      = ⟨.ok (), ⟨g, [], Table.empty⟩, []⟩ := by
    rw [Attachment.walk]
    simp only [Attachment.enter_of_isActive h, Attachment.walk]
  rw [attach_eq, attachResolving, hwalk]
  exact ⟨rfl, rfl⟩

/-! ## 2. A new node -/

theorem node?_push_self (g : Graph) (payload : Payload) :
    (g.push payload).node? ⟨g.nodes.size⟩ = some { payload := payload } := by
  rw [node?_push, if_pos rfl]

/-- A slot that members fill passes its check. -/
theorem checkSlot_of_fills {owner : NodeId} {slot : Slot} (h : g.Fills slot) :
    g.checkSlot owner slot slot.target = .ok () := by
  cases htarget : slot.target with
  | none => exact Attachment.checkSlot_none_iff.mpr ((fills_none htarget).mp h)
  | some target =>
    obtain ⟨payload, hmember, hfamily⟩ := (fills_some htarget).mp h
    obtain ⟨node, hnode, hstate, rfl⟩ := member?_eq_some_iff.mp hmember
    exact Attachment.checkSlot_some_iff.mpr ⟨node, hnode, by simp [hstate], hfamily⟩

theorem fills_push {slot : Slot} : (g.push payload).Fills slot ↔ g.Fills slot := by
  simp only [Fills, Offers, member?_push]

/-- A new node whose slots are filled can be entered. -/
theorem enter_push (hslots : ∀ slot ∈ payload.slots, g.Fills slot) :
    (⟨g.push payload, [], Table.empty⟩ : Attachment).enter ⟨g.nodes.size⟩ = .ok (some payload) := by
  have hcheck : payload.slots.forM (fun slot => (g.push payload).checkSlot ⟨g.nodes.size⟩ slot
      (slot.target.map (⟨g.push payload, [], Table.empty⟩ : Attachment).representative))
        = .ok () := by
    refine (forM_eq_ok_iff _ _).mpr fun slot hslot => ?_
    have hself : slot.target.map (⟨g.push payload, [], Table.empty⟩ : Attachment).representative
        = slot.target := by
      cases slot.target <;> simp [Attachment.representative, Table.get?_empty]
    rw [hself]
    exact checkSlot_of_fills (fills_push.mpr (hslots slot hslot))
  simp only [Attachment.enter, Table.contains, Table.get?_empty, Graph.node, node?_push_self]
  simp [hcheck, bind, Except.bind, pure, Except.pure]

/-- Once entered it is left at once, and what leaving it does is all that attaching it does. -/
theorem attach_of_leave (hslots : ∀ slot ∈ payload.slots, g.Fills slot) {a : Attachment}
    {reports : List Report}
    (hleave : (⟨g.push payload, [⟨g.nodes.size⟩], Table.empty⟩ : Attachment).leave ⟨g.nodes.size⟩
      = ⟨.ok (), a, reports⟩) :
    (attach ⟨g.nodes.size⟩ (g.push payload)).result = .ok (a.representative ⟨g.nodes.size⟩) ∧
      (attach ⟨g.nodes.size⟩ (g.push payload)).state = a.graph := by
  have hactive : ∀ target ∈ payload.edges, (g.push payload).isActive target = true := by
    intro target htarget
    obtain ⟨slot, hslot, hset⟩ := Payload.mem_edges_iff.mp htarget
    obtain ⟨found, hfound, -⟩ := (fills_some hset).mp (fills_push.mpr (hslots slot hslot))
    exact isActive_iff.mpr ⟨found, hfound⟩
  have hwalk : Attachment.walk (g.push payload).nodes.size [.enter ⟨g.nodes.size⟩]
      ⟨g.push payload, [], Table.empty⟩ = ⟨.ok (), a, reports ++ []⟩ := by
    rw [show (g.push payload).nodes.size = g.nodes.size + 1 by simp [push], Attachment.walk]
    simp only [enter_push hslots]
    rw [Attachment.walk_skip_members _ hactive, Attachment.walk]
    simp only [hleave, Attachment.walk, Outcome.after]
  rw [attach_eq, attachResolving, hwalk]
  exact ⟨rfl, rfl⟩

/-- The member an equal payload is attached as already, for payloads of unique kinds. -/
def twin? (g : Graph) (payload : Payload) : Option NodeId :=
  if payload.kind.isUnique then g.pooled? payload else none

theorem Kept.twin?_eq_some (h : g.Kept) (htwin : g.twin? payload = some id) :
    g.member? id = some payload := by
  unfold twin? at htwin
  split at htwin
  · exact (h.pooled?_eq_some_iff.mp htwin).1
  · exact absurd htwin (by simp)

/-- **A new node whose slots are filled becomes a member, unless its twin is one.** -/
theorem attach_push (h : g.Kept) (hslots : ∀ slot ∈ payload.slots, g.Fills slot) :
    (attach ⟨g.nodes.size⟩ (g.push payload)).result
      = .ok ((g.twin? payload).getD ⟨g.nodes.size⟩) ∧
    ∀ id, (attach ⟨g.nodes.size⟩ (g.push payload)).state.member? id
      = if id = (g.twin? payload).getD ⟨g.nodes.size⟩ then some payload else g.member? id := by
  have hnode := node?_push_self g payload
  have hpayload : (g.push payload).payload? ⟨g.nodes.size⟩ = some payload := by
    simp [payload?, hnode]
  have hself : payload.mapEdges
      (⟨g.push payload, [⟨g.nodes.size⟩], Table.empty⟩ : Attachment).representative = payload :=
    Payload.mapEdges_eq_self fun _ _ => by simp [Attachment.representative, Table.get?_empty]
  have htwin : (⟨g.push payload, [⟨g.nodes.size⟩], Table.empty⟩ : Attachment).twin? payload
      = g.twin? payload := by
    unfold Attachment.twin? twin?
    split
    · refine Option.ext fun id => ?_
      rw [h.pooled?_eq_some_iff, (h.push payload).pooled?_eq_some_iff, member?_push]
    · rfl
  cases hfound : g.twin? payload with
  | some member =>
    obtain ⟨hresult, hstate⟩ := attach_of_leave hslots (by
      simp only [Attachment.leave, hpayload, hself, htwin, hfound]
      rfl)
    rw [hresult, hstate]
    refine ⟨by simp [Attachment.representative, Attachment.discard, Table.get?_insert_self], ?_⟩
    intro id
    rw [Attachment.member?_discard hnode (by simp), Option.getD_some, member?_push]
    split
    · rename_i heq
      exact heq ▸ h.twin?_eq_some hfound
    · rfl
  | none =>
    obtain ⟨hresult, hstate⟩ := attach_of_leave hslots (by
      simp only [Attachment.leave, hpayload, hself, htwin, hfound]
      rfl)
    rw [hresult, hstate]
    refine ⟨by simp [Attachment.representative, Attachment.enroll, Table.get?_insert_self], ?_⟩
    intro id
    rw [Attachment.member?_enroll hnode, Option.getD_none, member?_push]

/-! ## 3. Adding a unique payload -/

/-- **Adding a unique payload answers the member that has it, or else a new one**, and changes no
other member. -/
theorem add_unique (h : g.Kept) (hunique : payload.kind.isUnique = true) :
    (add payload g).result = .ok ((g.pooled? payload).getD ⟨g.nodes.size⟩) ∧
      ∀ id, (add payload g).state.member? id
        = if id = (g.pooled? payload).getD ⟨g.nodes.size⟩ then some payload else g.member? id := by
  have htwin : g.twin? payload = g.pooled? payload := if_pos hunique
  have hattach := attach_push h (show ∀ slot ∈ payload.slots, g.Fills slot by
    simp [Payload.slots_of_isUnique hunique])
  rw [htwin] at hattach
  exact hattach

end Graph

end BehaviorGraph
