/-
# Replacing a node

Replacing a node moves every edge that points to it and then deletes it.  Moving the edges is one
change of all members at once: `member?_redirect` says that **every member's payload is sent
through the swap of the two nodes**, whether it used the old node or not.

The records agree again after the edges have moved (`kept_redirect`), with nobody using the old
node, so that deleting it cannot fail.  That the new node does not lead back to the old one plays
no part in this: it only keeps the edges from closing a cycle.
-/
import BehaviorGraph.Proofs.Attaching
import BehaviorGraph.Proofs.Runs

namespace BehaviorGraph

/-! ## 1. The swap -/

/-- Use `new` instead of `old`. -/
def swap (old new id : NodeId) : NodeId := if id = old then new else id

section Swap

variable {old new : NodeId}

@[simp] theorem swap_self (old new : NodeId) : swap old new old = new := if_pos rfl

/-- Nodes other than `old` stay. -/
theorem swap_of_ne {id : NodeId} (h : id ≠ old) : swap old new id = id := if_neg h

/-- Nothing is `old` afterwards. -/
theorem swap_ne_old (h : new ≠ old) (id : NodeId) : swap old new id ≠ old := by
  unfold swap
  split
  · exact h
  · assumption

/-- The new node takes the place of both, and the old one of none. -/
theorem count_map_swap (h : new ≠ old) (targets : List NodeId) (id : NodeId) :
    (targets.map (swap old new)).count id
      = if id = old then 0
        else if id = new then targets.count new + targets.count old else targets.count id := by
  induction targets with
  | nil => simp
  | cons target targets ih =>
    rw [List.map_cons, List.count_cons, ih]
    -- By induction on the targets, and by whether the first of them is moved.
    by_cases htarget : target = old
    · subst htarget
      rw [swap_self]
      by_cases hold : id = target
      · subst hold
        simp [h]
      · by_cases hnew : id = new
        · subst hnew
          simp only [if_neg hold, if_pos, beq_self_eq_true, List.count_cons_self,
            List.count_cons_of_ne (Ne.symm h)]
          omega
        · simp [hold, hnew, Ne.symm hnew, List.count_cons_of_ne (Ne.symm hold)]
    · rw [swap_of_ne htarget]
      by_cases hold : id = old
      · subst hold
        simp [htarget]
      · by_cases hnew : id = new
        · subst hnew
          simp only [if_neg hold, if_pos, List.count_cons_of_ne htarget, List.count_cons]
          omega
        · simp only [if_neg hold, if_neg hnew, List.count_cons]

end Swap

namespace Graph

variable {g : Graph} {old new id : NodeId} {payload : Payload} {node : Node}

/-! ## 2. Moving the edges -/

/-- Changing several nodes in the same way, where doing it twice is doing it once. -/
theorem node?_foldl_modify {f : Node → Node} (hidem : ∀ node, f (f node) = f node)
    (ids : List NodeId) (g : Graph) (id : NodeId) :
    (ids.foldl (fun g user => g.modify user f) g).node? id
      = (g.node? id).map fun node => if id ∈ ids then f node else node := by
  induction ids generalizing g with
  | nil => cases h : g.node? id <;> simp [h]
  | cons first ids ih =>
    rw [List.foldl_cons, ih, node?_modify]
    by_cases hfirst : id = first
    · subst hfirst
      cases g.node? id with
      | none => simp
      | some node => by_cases hmem : id ∈ ids <;> simp [hmem, hidem]
    · simp [hfirst]

/-- A payload that was sent through the swap has no edge left to change. -/
theorem mapEdges_swap_idem (h : new ≠ old) (payload : Payload) :
    (payload.mapEdges (swap old new)).mapEdges (swap old new)
      = payload.mapEdges (swap old new) := by
  refine Payload.mapEdges_eq_self fun target htarget => ?_
  rw [Payload.edges_mapEdges] at htarget
  obtain ⟨id, -, rfl⟩ := List.mem_map.mp htarget
  exact swap_of_ne (swap_ne_old h id)

/-- A node after its edges moved from `old` to `new`. -/
def movedNode (old new : NodeId) (node : Node) : Node :=
  { node with payload := node.payload.mapEdges (swap old new) }

/-- Moving edges, as three changes of the arena: of the users, of the old node and of the new one.
-/
theorem redirect_eq (g : Graph) (old new : NodeId) :
    g.redirect old new
      = (((g.users old).foldl (fun g user => g.modify user (movedNode old new)) g).modify old
          fun node => { node with usages := [] }).modify new
            fun node => { node with usages := node.usages ++ g.usages old } := rfl

/-- What became of a node when the edges have moved: its payload if it used the old one, and its
usages if it is one of the two. -/
theorem node?_redirect (h : new ≠ old) (g : Graph) (id : NodeId) :
    (g.redirect old new).node? id = (g.node? id).map fun node =>
      { node with
        payload := if id ∈ g.users old then node.payload.mapEdges (swap old new) else node.payload
        usages := if id = old then [] else if id = new then node.usages ++ g.usages old
          else node.usages } := by
  have hidem : ∀ node, movedNode old new (movedNode old new node) = movedNode old new node :=
    fun node => by simp only [movedNode, mapEdges_swap_idem h]
  rw [redirect_eq, node?_modify, node?_modify, node?_modify, node?_foldl_modify hidem,
    node?_foldl_modify hidem, node?_foldl_modify hidem]
  by_cases hnew : id = new
  · subst hnew
    cases g.node? id with
    | none => simp [h]
    | some node => by_cases hmem : id ∈ g.users old <;> simp [h, hmem, movedNode]
  · by_cases hold : id = old
    · subst hold
      cases g.node? id with
      | none => simp [hnew]
      | some node => by_cases hmem : id ∈ g.users id <;> simp [hnew, hmem, movedNode]
    · cases g.node? id with
      | none => simp [hnew, hold]
      | some node => by_cases hmem : id ∈ g.users old <;> simp [hnew, hold, hmem, movedNode]

/-- The users of a node are the members with an edge to it. -/
theorem mem_users_iff (h : g.Kept) (hnode : g.node? old = some node)
    (hmember : g.member? id = some payload) : id ∈ g.users old ↔ old ∈ payload.edges := by
  have hcount := h.counted hnode id
  rw [weight_of_member? hmember] at hcount
  rw [users, List.mem_eraseDups, ← List.count_pos_iff, ← List.count_pos_iff]
  simp [usages, hnode, hcount]

/-- **Moving edges sends every member through the swap.** -/
theorem member?_redirect (h : g.Kept) (hne : new ≠ old) (hold : g.node? old = some node)
    (id : NodeId) :
    (g.redirect old new).member? id = (g.member? id).map (Payload.mapEdges (swap old new)) := by
  cases hnode : g.node? id with
  | none =>
    have hnode' : (g.redirect old new).node? id = none := by rw [node?_redirect hne, hnode]; rfl
    simp [member?, hnode, hnode']
  | some found =>
    have hnode' := node?_redirect hne g id
    rw [hnode, Option.map_some] at hnode'
    rw [member?_of_node? hnode', member?_of_node? hnode]
    by_cases hstate : found.state = .active
    · have hmember : g.member? id = some found.payload :=
        member?_eq_some_iff.mpr ⟨found, hnode, hstate, rfl⟩
      simp only [if_pos hstate, Option.map_some]
      -- Who does not use the old node has no edge for the swap to move.
      by_cases huser : id ∈ g.users old
      · rw [if_pos huser]
      · rw [if_neg huser, Payload.mapEdges_eq_self]
        intro target htarget
        refine swap_of_ne ?_
        rintro rfl
        exact huser ((mem_users_iff h hold hmember).mpr htarget)
    · simp only [if_neg hstate, Option.map_none]

/-- No payload of a unique node has an edge, so the pool need not change, and it does not. -/
theorem pool_redirect (g : Graph) (old new : NodeId) : (g.redirect old new).pool = g.pool := by
  have hfold : ∀ (ids : List NodeId) (g : Graph),
      (ids.foldl (fun g user => g.modify user (movedNode old new)) g).pool = g.pool := by
    intro ids
    induction ids with
    | nil => exact fun _ => rfl
    | cons first ids ih => exact fun g => ih (g.modify first (movedNode old new))
  rw [redirect_eq, pool_modify, pool_modify, hfold]

/-- **The records agree again when the edges have moved**, if the new node is a member that fits
every slot the old one filled. -/
theorem kept_redirect (h : g.Kept) (hne : new ≠ old) (hold : g.node? old = some node)
    {found : Payload} (hnew : g.member? new = some found)
    (hfits : ∀ {user payload}, g.member? user = some payload → ∀ slot ∈ payload.slots,
      slot.target = some old → found.kind.isA slot.family = true) : (g.redirect old new).Kept := by
  have hmembers := member?_redirect h hne hold
  have hoffers : ∀ {target family}, g.Offers target family →
      (g.redirect old new).Offers target family := by
    rintro target family ⟨payload, hpayload, hfamily⟩
    exact ⟨payload.mapEdges (swap old new), by rw [hmembers, hpayload]; rfl,
      by rwa [Payload.kind_mapEdges]⟩
  -- Slots, usages, marks, pool entries and their keys, in this order.
  refine ⟨?_, ?_, ?_, ?_, ?_⟩
  · intro user payload' hmember' slot' hslot'
    rw [hmembers] at hmember'
    obtain ⟨payload, hmember, rfl⟩ := Option.map_eq_some_iff.mp hmember'
    rw [Payload.slots_mapEdges] at hslot'
    obtain ⟨slot, hslot, rfl⟩ := List.mem_map.mp hslot'
    have hfilled := h.filled hmember slot hslot
    cases htarget : slot.target with
    | none => exact (fills_none (by simp [htarget])).mpr ((fills_none htarget).mp hfilled)
    | some target =>
      refine (fills_some (show _ = some (swap old new target) by simp [htarget])).mpr ?_
      by_cases htold : target = old
      · subst htold
        rw [swap_self]
        exact hoffers ⟨found, hnew, hfits hmember slot hslot htarget⟩
      · rw [swap_of_ne htold]
        exact hoffers ((fills_some htarget).mp hfilled)
  · intro target node' hnode' user
    rw [node?_redirect hne] at hnode'
    obtain ⟨before, hbefore, rfl⟩ := Option.map_eq_some_iff.mp hnode'
    -- The usages of the old node are appended to those of the new one, and that is how the swap
    -- counts.
    have hweight : (g.redirect old new).weight user target
        = if target = old then 0
          else if target = new then g.weight user new + g.weight user old
          else g.weight user target := by
      unfold weight
      rw [hmembers]
      cases g.member? user with
      | none => simp
      | some payload => simp only [Option.map_some, Payload.edges_mapEdges, count_map_swap hne]
    rw [hweight]
    by_cases htold : target = old
    · simp [htold]
    · by_cases htnew : target = new
      · subst htnew
        have husages : g.usages old = node.usages := by simp [usages, hold]
        simp only [if_neg htold, if_pos, List.count_append, husages, h.counted hbefore user,
          h.counted hold user]
      · simp only [if_neg htold, if_neg htnew]
        exact h.counted hbefore user
  · intro id node' hnode'
    rw [node?_redirect hne] at hnode'
    obtain ⟨before, hbefore, rfl⟩ := Option.map_eq_some_iff.mp hnode'
    simpa using h.marked hbefore
  · intro payload id
    rw [pool_redirect, h.pooled, hmembers]
    constructor
    · rintro ⟨hmember, hunique⟩
      exact ⟨by rw [hmember, Option.map_some, Payload.mapEdges_of_isUnique hunique], hunique⟩
    · rintro ⟨hmember, hunique⟩
      obtain ⟨payload', hmember', rfl⟩ := Option.map_eq_some_iff.mp hmember
      rw [Payload.kind_mapEdges] at hunique
      rw [Payload.mapEdges_of_isUnique hunique]
      exact ⟨hmember', hunique⟩
  · rw [pool_redirect]
    exact h.keys

/-! ## 3. The whole replacement -/

/-- What is required of the old node is that it is a member. -/
theorem requireActive_eq_ok_iff :
    g.requireActive id = .ok () ↔ ∃ payload, g.member? id = some payload := by
  unfold requireActive Graph.node member?
  cases hnode : g.node? id with
  | none => simp [bind, Except.bind]
  | some node => cases hstate : node.state <;> simp [bind, Except.bind, Node.isActive, hstate]

/-- The check before a replacement passes if the new kind fits every slot of every user. -/
theorem checkReplacement_eq_ok {found : Kind} {user : NodeId}
    (h : g.checkReplacement old found user = .ok ()) (hmember : g.member? user = some payload) :
    ∀ slot ∈ payload.slots, slot.target = some old → found.isA slot.family = true := by
  intro slot hslot htarget
  rw [checkReplacement, payload?_of_member? hmember] at h
  have hcheck := (forM_eq_ok_iff _ _).mp h slot hslot
  cases hfamily : found.isA slot.family with
  | true => rfl
  | false => simp [htarget, hfamily] at hcheck

/-- **All that can come of replacing `old` by `new`**, as result and graph. -/
inductive Replacement (g : Graph) (old new : NodeId) : Except Fault NodeId → Graph → Prop where
  /-- The old node is no member. -/
  | inactive {fault : Fault} (hold : g.requireActive old = .error fault) :
    Replacement g old new (.error fault) g
  /-- The new node cannot be attached. -/
  | unattached {fault : Fault} {payload : Payload} (hold : g.member? old = some payload)
    (hnew : (attach new g).result = .error fault) :
    Replacement g old new (.error fault) (attach new g).state
  /-- The old node itself stands for the new one. -/
  | same {payload : Payload} (hold : g.member? old = some payload)
    (hnew : (attach new g).result = .ok old) : Replacement g old new (.ok old) (attach new g).state
  /-- The old node can be reached from the new one. -/
  | reached {member : NodeId} {payload : Payload} (hold : g.member? old = some payload)
    (hnew : (attach new g).result = .ok member) (hne : member ≠ old)
    (hreach : (attach new g).state.reaches member old = true) :
    Replacement g old new (.error (.selfReplacement old member)) (attach new g).state
  /-- The new node does not fit a slot of a user. -/
  | misfit {member : NodeId} {payload found : Payload} {fault : Fault}
    (hold : g.member? old = some payload) (hnew : (attach new g).result = .ok member)
    (hne : member ≠ old) (hreach : (attach new g).state.reaches member old = false)
    (hfound : (attach new g).state.member? member = some found)
    (hcheck : ((attach new g).state.users old).forM
      ((attach new g).state.checkReplacement old found.kind) = .error fault) :
    Replacement g old new (.error fault) (attach new g).state
  /-- The edges move and the old node goes. -/
  | moved {member : NodeId} {payload found : Payload} (hold : g.member? old = some payload)
    (hnew : (attach new g).result = .ok member) (hne : member ≠ old)
    (hreach : (attach new g).state.reaches member old = false)
    (hfound : (attach new g).state.member? member = some found)
    (hcheck : ((attach new g).state.users old).forM
      ((attach new g).state.checkReplacement old found.kind) = .ok ()) :
    Replacement g old new (.ok member) (((attach new g).state.redirect old member).withdraw old
      (payload.mapEdges (swap old member)))

/-- A new kind that passes the check of every user fits every slot that points to the old node. -/
theorem fits_of_forM_eq_ok (h : g.Kept) {found : Kind} (hold : g.node? old = some node)
    (hcheck : (g.users old).forM (g.checkReplacement old found) = .ok ()) {user : NodeId}
    (hmember : g.member? user = some payload) :
    ∀ slot ∈ payload.slots, slot.target = some old → found.isA slot.family = true := by
  intro slot hslot htarget
  have huser : user ∈ g.users old := (mem_users_iff h hold hmember).mpr
    (Payload.mem_edges_iff.mpr ⟨slot, hslot, htarget⟩)
  exact checkReplacement_eq_ok ((forM_eq_ok_iff _ _).mp hcheck user huser) hmember
    slot hslot htarget

/-- When the edges have moved, the old node is a member nobody uses. -/
theorem node?_redirect_old (hne : new ≠ old) (h : g.Kept) (hold : g.member? old = some payload) :
    ∃ node, (g.redirect old new).node? old = some node ∧ node.state = .active ∧ node.usages = [] ∧
      node.payload = payload.mapEdges (swap old new) := by
  obtain ⟨before, hbefore, -, -⟩ := member?_eq_some_iff.mp hold
  have hmoved : (g.redirect old new).member? old = some (payload.mapEdges (swap old new)) := by
    rw [member?_redirect h hne hbefore, hold, Option.map_some]
  obtain ⟨node, hnode, hstate, hpayload⟩ := member?_eq_some_iff.mp hmoved
  refine ⟨node, hnode, hstate, ?_, hpayload⟩
  rw [node?_redirect hne, hbefore, Option.map_some] at hnode
  rw [← Option.some.inj hnode]
  exact if_pos rfl

/-- **Replacing ends in one of these ways**, which are told apart in the order in which the
operation asks. -/
theorem replace_ends (h : g.Kept) (old new : NodeId) :
    (replace old new).Ends g (Replacement g old new) := by
  unfold replace
  rw [Run.ends_bind, Run.ends_state]
  simp only
  rw [Run.ends_bind, Run.ends_ofExcept]
  cases hactive : g.requireActive old with
  | error fault => exact .inactive hactive
  | ok value =>
    obtain ⟨payload, hold⟩ := requireActive_eq_ok_iff.mp hactive
    have hkept := attach_kept h new
    have hold' := (attach_grown h new).member? hold
    simp only
    rw [Run.ends_bind]
    unfold Run.Ends
    cases hnew : (attach new g).result with
    | error fault => exact .unattached hold hnew
    | ok member =>
      obtain ⟨found, hfound, -⟩ := attach_member h hnew
      simp only
      change Run.Ends _ (attach new g).state (Replacement g old new)
      by_cases hne : member = old
      · subst hne
        rw [if_pos rfl]
        exact .same hold hnew
      · rw [if_neg hne, Run.ends_bind, Run.ends_state]
        simp only
        cases hreach : (attach new g).state.reaches member old with
        | true => exact .reached hold hnew hne hreach
        | false =>
          rw [if_neg Bool.false_ne_true, kind?_of_member? hfound]
          simp only
          rw [Run.ends_bind, Run.ends_ofExcept]
          cases hcheck : ((attach new g).state.users old).forM
              ((attach new g).state.checkReplacement old found.kind) with
          | error fault => exact .misfit hold hnew hne hreach hfound hcheck
          | ok value =>
            simp only
            rw [Run.ends_bind, Run.ends_update]
            simp only
            rw [Run.ends_bind, Run.ends_log]
            simp only
            obtain ⟨node, hnode, hstate, hnil, hpayload⟩ := node?_redirect_old hne hkept hold'
            obtain ⟨hresult, hstate'⟩ := delete_eq_withdraw hnode hstate hnil
            rw [Run.ends_bind]
            unfold Run.Ends
            rw [hresult, hstate', hpayload]
            exact .moved hold hnew hne hreach hfound hcheck

/-- **Replacing keeps agreement, whatever comes of it.** -/
theorem replace_preserves (old new : NodeId) : Run.Preserves Kept (replace old new) := by
  intro g h
  refine (replace_ends h old new).imp fun r g' hreplaced => ?_
  have hkept := attach_kept h new
  cases hreplaced with
  | inactive => exact h
  | unattached => exact hkept
  | same => exact hkept
  | reached => exact hkept
  | misfit => exact hkept
  | @moved member payload found hold hnew hne hreach hfound hcheck =>
    have hold' := (attach_grown h new).member? hold
    obtain ⟨before, hbefore, -, -⟩ := member?_eq_some_iff.mp hold'
    obtain ⟨node, hnode, hstate, hnil, hpayload⟩ := node?_redirect_old hne hkept hold'
    rw [← hpayload]
    exact kept_withdraw (kept_redirect hkept hne hbefore hfound
      (fits_of_forM_eq_ok hkept hbefore hcheck)) hnode hstate hnil

end Graph

end BehaviorGraph
