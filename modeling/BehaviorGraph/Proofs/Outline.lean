/-
# The outline of a graph

Control flow runs through the members that are no values.  What it can see of such a member is its
kind, its successors and who uses it: its outline (`Graph.outline?`).  Values come and go in many
ways without touching an outline, because they have no successors and use values only.

`Framed` says that two graphs have one name, one owner and the same outlines.  Two halves make it
useful.

* **Each change of the arena that concerns values alone is framed**: creating a node
  (`framed_push`), making a value a member or giving it up for one that exists (`framed_enroll`,
  `framed_discard`), moving the edges of one value to another (`framed_redirect`) and withdrawing a
  value (`framed_withdraw`).  Each time the point is the same: the only usages that change are
  those of nodes that values read, and these are values.
* **The checks of the control flow say the same about graphs that are framed**
  (`Framed.checkTerminal_eq`, `Framed.checkControlFlow_eq`).  They read kinds, successors and
  users, so it is enough that every node they come to has an outline: the vertices of the control
  flow do (`Kept.controlFlow`), and so does what is reached from one of them
  (`Kept.outline?_of_mem_depthFirst`).

A pass that rewrites values step by step is framed by transitivity, and its verdict on the control
flow is that of the graph it began with.
-/
import BehaviorGraph.Check.Control
import BehaviorGraph.Proofs.Adding
import BehaviorGraph.Proofs.Ordering

namespace BehaviorGraph

/-! ## 1. Outlines -/

/-- What control flow sees of a node. -/
structure Outline where
  kind : Kind
  successors : List Slot
  usages : List NodeId

/-- Values and nodes that are no members have no outline. -/
def Node.outline? (node : Node) : Option Outline :=
  if node.isActive && !node.kind.isA .value then
    some ⟨node.kind, node.payload.successorSlots, node.usages⟩
  else none

/-- Detached and deleted nodes are off the control flow. -/
theorem Node.outline?_of_ne_active {node : Node} (h : node.state ≠ .active) :
    node.outline? = none := by
  simp [outline?, isActive, h]

/-- So are values, members or not. -/
theorem Node.outline?_of_isValue {node : Node} (h : node.kind.isA .value = true) :
    node.outline? = none := by
  simp [outline?, h]

/-- What an outline says, read back: the node is a member, it is no value, and the outline has its
kind, its successors and its usages. -/
theorem Node.outline?_eq_some_iff {node : Node} {o : Outline} :
    node.outline? = some o ↔ node.state = .active ∧ node.kind.isA .value = false ∧
      ⟨node.kind, node.payload.successorSlots, node.usages⟩ = o := by
  unfold outline?
  by_cases hactive : node.state = .active <;> by_cases hvalue : node.kind.isA .value = true <;>
    simp [isActive, hactive, hvalue]

/-- A change that keeps state and kind is seen only where a member that is no value changes its
successors or usages. -/
theorem Node.outline?_congr {node node' : Node} (hstate : node'.state = node.state)
    (hkind : node'.kind = node.kind)
    (hsame : node.state = .active → node.kind.isA .value = false →
      node'.payload.successorSlots = node.payload.successorSlots ∧ node'.usages = node.usages) :
    node'.outline? = node.outline? := by
  unfold outline? isActive
  rw [hstate, hkind]
  -- Whether there is an outline depends on state and kind alone.
  split
  · rename_i hsees
    rw [Bool.and_eq_true, decide_eq_true_eq, Bool.not_eq_true'] at hsees
    rw [(hsame hsees.1 hsees.2).1, (hsame hsees.1 hsees.2).2]
  · rfl

/-- A value is off the control flow. -/
theorem Kind.isA_control_of_isValue {kind : Kind} (h : kind.isA .value = true) :
    kind.isA .control = false := by
  cases kind <;> first | rfl | exact Bool.noConfusion h

/-- Successors are control nodes. -/
theorem Payload.family_of_mem_successorSlots {payload : Payload} {slot : Slot}
    (h : slot ∈ payload.successorSlots) : slot.family = .control := by
  revert slot
  cases payload <;> simp [successorSlots, Slot.maybe]

namespace Graph

variable {g g' g'' : Graph} {id old new : NodeId} {payload : Payload} {node : Node} {o : Outline}

/-- **The outline of a member that is no value.** -/
def outline? (g : Graph) (id : NodeId) : Option Outline := (g.node? id).bind Node.outline?

/-- Of a node that exists the outline is that of the node. -/
theorem outline?_of_node? (h : g.node? id = some node) : g.outline? id = node.outline? := by
  rw [outline?, h, Option.bind_some]

/-- Whoever has an outline is a member and no value, and has what the outline says. -/
theorem outline?_eq_some_iff :
    g.outline? id = some o ↔ ∃ node, g.node? id = some node ∧ node.state = .active ∧
      node.kind.isA .value = false ∧
      ⟨node.kind, node.payload.successorSlots, node.usages⟩ = o := by
  simp only [outline?, Option.bind_eq_some_iff, Node.outline?_eq_some_iff]

/-- Every member that is no value has an outline, with its own kind. -/
theorem exists_outline? (hmember : g.member? id = some payload)
    (hvalue : payload.kind.isA .value = false) :
    ∃ o, g.outline? id = some o ∧ o.kind = payload.kind := by
  obtain ⟨node, hnode, hstate, rfl⟩ := member?_eq_some_iff.mp hmember
  exact ⟨_, outline?_eq_some_iff.mpr ⟨node, hnode, hstate, hvalue, rfl⟩, rfl⟩

/-- The three things that the checks ask about a node, its kind, its usages and its successors, are
in its outline. -/
theorem kind?_of_outline? (h : g.outline? id = some o) : g.kind? id = some o.kind := by
  obtain ⟨node, hnode, -, -, rfl⟩ := outline?_eq_some_iff.mp h
  simp [kind?, hnode]

theorem usages_of_outline? (h : g.outline? id = some o) : g.usages id = o.usages := by
  obtain ⟨node, hnode, -, -, rfl⟩ := outline?_eq_some_iff.mp h
  simp [usages, hnode]

/-- An outline belongs to a member whose kind and successor slots it has. -/
theorem member?_of_outline? (h : g.outline? id = some o) :
    ∃ payload, g.member? id = some payload ∧ payload.kind = o.kind ∧
      payload.kind.isA .value = false ∧ payload.successorSlots = o.successors := by
  obtain ⟨node, hnode, hstate, hvalue, rfl⟩ := outline?_eq_some_iff.mp h
  exact ⟨node.payload, member?_eq_some_iff.mpr ⟨node, hnode, hstate, rfl⟩, rfl, hvalue, rfl⟩

theorem successors_of_outline? (h : g.outline? id = some o) :
    g.successors id = o.successors.map Slot.target := by
  obtain ⟨payload, hmember, -, -, hslots⟩ := member?_of_outline? h
  rw [successors, payload?_of_member? hmember, ← hslots]
  rfl

/-- **Two graphs are the same but for their values.** -/
structure Framed (g g' : Graph) : Prop where
  name : g'.name = g.name
  owner : g'.owner = g.owner
  outline? : ∀ id, g'.outline? id = g.outline? id

theorem Framed.refl (g : Graph) : g.Framed g := ⟨rfl, rfl, fun _ => rfl⟩

theorem Framed.trans (h : g.Framed g') (h' : g'.Framed g'') : g.Framed g'' :=
  ⟨h'.name.trans h.name, h'.owner.trans h.owner, fun id => (h'.outline? id).trans (h.outline? id)⟩

/-! ## 2. Changes that are framed -/

theorem name_owner_addUsages (g : Graph) (user : NodeId) (targets : List NodeId) :
    (g.addUsages user targets).name = g.name ∧ (g.addUsages user targets).owner = g.owner := by
  induction targets generalizing g with
  | nil => exact ⟨rfl, rfl⟩
  | cons target targets ih => exact ih (g.addUsage target user)

theorem name_owner_removeUsages (g : Graph) (user : NodeId) (targets : List NodeId) :
    (g.removeUsages user targets).name = g.name ∧
    (g.removeUsages user targets).owner = g.owner := by
  induction targets generalizing g with
  | nil => exact ⟨rfl, rfl⟩
  | cons target targets ih => exact ih (g.removeUsage target user)

/-- The arena changes node by node when edges are moved; name and owner stand outside of it. -/
theorem name_owner_redirect (g : Graph) (old new : NodeId) :
    (g.redirect old new).name = g.name ∧ (g.redirect old new).owner = g.owner := by
  have hfold : ∀ (ids : List NodeId) (g : Graph),
      (ids.foldl (fun g user => g.modify user (movedNode old new)) g).name = g.name ∧
      (ids.foldl (fun g user => g.modify user (movedNode old new)) g).owner = g.owner := by
    intro ids
    induction ids with
    | nil => exact fun _ => ⟨rfl, rfl⟩
    | cons first ids ih => exact fun g => ih (g.modify first (movedNode old new))
  exact hfold _ g

theorem name_owner_withdraw (g : Graph) (id : NodeId) (payload : Payload) :
    (g.withdraw id payload).name = g.name ∧ (g.withdraw id payload).owner = g.owner := by
  have hremove := g.name_owner_removeUsages id payload.edges
  unfold withdraw unregister
  split <;> exact hremove

/-- A new node is no member. -/
theorem framed_push (g : Graph) (payload : Payload) : g.Framed (g.push payload) := by
  refine ⟨rfl, rfl, fun id => ?_⟩
  unfold outline?
  rw [node?_push]
  -- Only the new place is looked at: it was empty before, and the node there is detached now.
  split
  · rename_i hindex
    rw [(g.node?_eq_none_iff id).mpr (by omega)]
    exact Node.outline?_of_ne_active (by simp)
  · rfl

namespace Attachment

variable {a : Attachment}

/-- A detached node that is given up for a member was off the control flow before and is after. -/
theorem framed_discard (hnode : a.graph.node? id = some node) (hstate : node.state ≠ .active)
    (member : NodeId) : a.graph.Framed (a.discard id member).graph := by
  refine ⟨rfl, rfl, fun other => ?_⟩
  simp only [discard]
  by_cases hother : other = id
  · subst hother
    rw [outline?_of_node? hnode, Node.outline?_of_ne_active hstate]
    exact (outline?_of_node? (by rw [node?_modify_self, hnode, Option.map_some])).trans
      (Node.outline?_of_ne_active (by simp))
  · rw [outline?, node?_modify_of_ne _ _ _ hother, outline?]

/-- A value that becomes a member is recorded with values only. -/
theorem framed_enroll (hnode : a.graph.node? id = some node) (hstate : node.state ≠ .active)
    (hvalue : payload.kind.isA .value = true)
    (hreads : ∀ target ∈ payload.edges, a.graph.Offers target .value) :
    a.graph.Framed (a.enroll id payload).graph := by
  -- The pool and the usages are all that `enroll` changes besides the state of `id`.
  have hlabel : (a.enroll id payload).graph.name = a.graph.name ∧
      (a.enroll id payload).graph.owner = a.graph.owner := by
    simp only [enroll, name_owner_addUsages]
    split <;> exact ⟨rfl, rfl⟩
  refine ⟨hlabel.1, hlabel.2, fun other => ?_⟩
  unfold outline?
  rw [node?_enroll]
  -- The new member is a value, so it has no outline.  Any other node that has one is not read by
  -- it, because what a value reads is a value.
  by_cases hother : other = id
  · subst hother
    rw [hnode, Option.map_some, Option.bind_some, Option.bind_some,
      Node.outline?_of_ne_active hstate]
    exact Node.outline?_of_isValue (by simpa [Node.kind] using hvalue)
  · cases hfound : a.graph.node? other with
    | none => rfl
    | some found =>
      simp only [hother, if_false, Option.map_some, Option.bind_some]
      refine Node.outline?_congr rfl rfl fun _ hkind => ⟨rfl, ?_⟩
      rw [List.count_eq_zero_of_not_mem, List.replicate_zero, List.append_nil]
      intro hread
      obtain ⟨offered, hoffered, hvalue'⟩ := hreads other hread
      obtain ⟨target, htarget, -, rfl⟩ := member?_eq_some_iff.mp hoffered
      obtain rfl := Option.some.inj (hfound.symm.trans htarget)
      exact absurd (hkind.symm.trans hvalue') (by simp)

end Attachment

/-- **Attaching a new value that reads members is framed.** -/
theorem framed_attach_push (hvalue : payload.kind.isA .value = true)
    (hslots : ∀ slot ∈ payload.slots, g.Fills slot)
    (hoffers : ∀ target ∈ payload.edges, g.Offers target .value) :
    g.Framed (attach ⟨g.nodes.size⟩ (g.push payload)).state := by
  have hnode := node?_push_self g payload
  have hpayload : (g.push payload).payload? ⟨g.nodes.size⟩ = some payload := by
    simp [payload?, hnode]
  -- No target is replaced on the way: all of them are members already, so the payload stays as it
  -- is.
  have hself : payload.mapEdges
      (⟨g.push payload, [⟨g.nodes.size⟩], Table.empty⟩ : Attachment).representative = payload :=
    Payload.mapEdges_eq_self fun _ _ => by simp [Attachment.representative, Table.get?_empty]
  refine (framed_push g payload).trans ?_
  -- Leaving the node either finds a member with the same payload and gives the new node up, or
  -- makes it a member.
  cases htwin : (⟨g.push payload, [⟨g.nodes.size⟩], Table.empty⟩ : Attachment).twin? payload with
  | some member =>
    rw [(attach_of_leave hslots (by
      simp only [Attachment.leave, hpayload, hself, htwin]
      rfl)).2]
    exact Attachment.framed_discard (a := ⟨g.push payload, _, _⟩) hnode (by simp) member
  | none =>
    rw [(attach_of_leave hslots (by
      simp only [Attachment.leave, hpayload, hself, htwin]
      rfl)).2]
    refine Attachment.framed_enroll (a := ⟨g.push payload, _, _⟩) hnode (by simp) hvalue ?_
    intro target htarget
    obtain ⟨found, hfound, hkind⟩ := hoffers target htarget
    exact ⟨found, by rwa [member?_push], hkind⟩

/-- A control node is no value. -/
theorem ne_of_offers_control {found : Payload} (hold : g.member? old = some found)
    (hvalue : found.kind.isA .value = true) (hcontrol : g.Offers id .control) : id ≠ old := by
  rintro rfl
  obtain ⟨payload, hmember, hkind⟩ := hcontrol
  rw [hold] at hmember
  obtain rfl := Option.some.inj hmember
  exact absurd (hkind.symm.trans (Kind.isA_control_of_isValue hvalue)) (by simp)

/-- The successors of a member do not move with a value. -/
theorem successorSlots_mapEdges_swap (h : g.Kept) (hmember : g.member? id = some payload)
    {found : Payload} (hold : g.member? old = some found) (hvalue : found.kind.isA .value = true)
    (new : NodeId) :
    (payload.mapEdges (swap old new)).successorSlots = payload.successorSlots := by
  rw [Payload.successorSlots_mapEdges]
  refine (List.map_congr_left fun slot hslot => ?_).trans (List.map_id _)
  have hfilled := h.filled hmember slot (List.mem_append_right _ hslot)
  rw [Slot.through, Slot.withTarget]
  -- A successor that is set points to a control node, and `old` is none.
  cases htarget : slot.target with
  | none =>
    rw [Option.map_none, ← htarget]
    rfl
  | some target =>
    have hoffers := (fills_some htarget).mp hfilled
    rw [Payload.family_of_mem_successorSlots hslot] at hoffers
    rw [Option.map_some, swap_of_ne (ne_of_offers_control hold hvalue hoffers), ← htarget]
    rfl

/-- **Moving edges from one value to another is framed.** -/
theorem framed_redirect (h : g.Kept) (hne : new ≠ old) {found : Payload}
    (hold : g.member? old = some payload) (hvalue : payload.kind.isA .value = true)
    (hnew : g.member? new = some found) (hkind : found.kind.isA .value = true) :
    g.Framed (g.redirect old new) := by
  obtain ⟨hname, howner⟩ := g.name_owner_redirect old new
  refine ⟨hname, howner, fun id => ?_⟩
  unfold outline?
  rw [node?_redirect hne]
  cases hnode : g.node? id with
  | none => rfl
  | some node =>
    rw [Option.map_some, Option.bind_some, Option.bind_some]
    -- Of a member that is no value the edges to values may move, but not its successors; its
    -- usages stay, because it is neither the old nor the new value.
    refine Node.outline?_congr rfl ?_ fun hstate hother => ?_
    · unfold Node.kind
      split <;> simp
    · have hmember : g.member? id = some node.payload :=
        member?_eq_some_iff.mpr ⟨node, hnode, hstate, rfl⟩
      have hnot : ∀ {other found}, g.member? other = some found → found.kind.isA .value = true →
          id ≠ other := by
        rintro other found hfound hkind rfl
        rw [hmember] at hfound
        obtain rfl := Option.some.inj hfound
        exact absurd (hother.symm.trans hkind) (by simp)
      simp only [if_neg (hnot hold hvalue), if_neg (hnot hnew hkind), and_true]
      split
      · exact successorSlots_mapEdges_swap h hmember hold hvalue new
      · rfl

/-- **Withdrawing a value is framed.** -/
theorem framed_withdraw (h : g.Kept) (hmember : g.member? id = some payload)
    (hvalue : payload.kind.isA .value = true) : g.Framed (g.withdraw id payload) := by
  obtain ⟨hname, howner⟩ := g.name_owner_withdraw id payload
  refine ⟨hname, howner, fun other => ?_⟩
  unfold outline?
  rw [node?_withdraw]
  cases hnode : g.node? other with
  | none => rfl
  | some node =>
    rw [Option.map_some, Option.bind_some, Option.bind_some]
    -- The value itself had no outline.  The usages that are taken back are those of nodes it
    -- reads, and these are values.
    by_cases hother : other = id
    · subst hother
      obtain ⟨found, hfound, -, rfl⟩ := member?_eq_some_iff.mp hmember
      obtain rfl := Option.some.inj (hnode.symm.trans hfound)
      have hnone : node.outline? = none := Node.outline?_of_isValue hvalue
      rw [hnone]
      exact Node.outline?_of_ne_active (by simp)
    · simp only [if_neg hother]
      refine Node.outline?_congr rfl rfl fun _ hkind => ⟨rfl, ?_⟩
      rw [List.count_eq_zero_of_not_mem, Function.iterate_zero_apply]
      intro hread
      rw [Payload.edges_of_isValue hvalue] at hread
      obtain ⟨target, htarget, hvalue'⟩ := h.value_of_mem_inputEdges hmember hvalue hread
      obtain ⟨found, hfound, -, rfl⟩ := member?_eq_some_iff.mp htarget
      obtain rfl := Option.some.inj (hnode.symm.trans hfound)
      exact absurd (hkind.symm.trans hvalue') (by simp)

/-! ## 3. Members that are no values -/

/-- Lists in order of creation with the same elements are one list. -/
theorem eq_of_mem_iff {ids ids' : List NodeId} (h : ids.Pairwise fun a b => a.index < b.index)
    (h' : ids'.Pairwise fun a b => a.index < b.index) (hmem : ∀ id, id ∈ ids ↔ id ∈ ids') :
    ids = ids' := by
  have hnodup : ∀ {ids : List NodeId}, ids.Pairwise (fun a b => a.index < b.index) → ids.Nodup :=
    fun hsorted => hsorted.imp fun hlt heq => by
      subst heq
      exact Nat.lt_irrefl _ hlt
  refine List.Perm.eq_of_pairwise ?_ h h'
    ((List.perm_ext_iff_of_nodup (hnodup h) (hnodup h')).mpr hmem)
  intro a b _ _ hab hba
  omega

/-- Members are listed in the order in which they were created. -/
theorem pairwise_members (g : Graph) : g.members.Pairwise fun a b => a.index < b.index := by
  refine List.Pairwise.filter _ (List.pairwise_map.mpr ?_)
  exact List.pairwise_lt_range

/-- A filter keeps the order. -/
theorem pairwise_membersOf (g : Graph) (filter : Filter) :
    (g.membersOf filter).Pairwise fun a b => a.index < b.index := g.pairwise_members.filter _

/-- A filter picks members by their kinds. -/
theorem mem_membersOf_iff {filter : Filter} :
    id ∈ g.membersOf filter
      ↔ ∃ payload, g.member? id = some payload ∧ filter.admits payload.kind = true := by
  rw [membersOf, List.mem_filter, mem_members_iff]
  constructor
  · rintro ⟨⟨payload, hmember⟩, hadmits⟩
    rw [kind?_of_member? hmember] at hadmits
    exact ⟨payload, hmember, hadmits⟩
  · rintro ⟨payload, hmember, hadmits⟩
    exact ⟨⟨payload, hmember⟩, by rw [kind?_of_member? hmember]; exact hadmits⟩

/-- A filter that picks no values picks by outline. -/
theorem mem_membersOf_iff_outline? {filter : Filter}
    (hfilter : ∀ kind, filter.admits kind = true → kind.isA .value = false) :
    id ∈ g.membersOf filter ↔ ∃ o, g.outline? id = some o ∧ filter.admits o.kind = true := by
  rw [mem_membersOf_iff]
  constructor
  · rintro ⟨payload, hmember, hadmits⟩
    obtain ⟨o, ho, hkind⟩ := exists_outline? hmember (hfilter _ hadmits)
    exact ⟨o, ho, hkind ▸ hadmits⟩
  · rintro ⟨o, ho, hadmits⟩
    obtain ⟨payload, hmember, hkind, -⟩ := member?_of_outline? ho
    exact ⟨payload, hmember, hkind ▸ hadmits⟩

/-- The filter for control nodes picks no values. -/
theorem isValue_of_admits_control (kind : Kind) (h : (Filter.family .control).admits kind = true) :
    kind.isA .value = false := by
  cases kind <;> first | rfl | exact Bool.noConfusion h

/-- Who uses a member that is no value is no value either. -/
theorem Kept.outline?_of_mem_users (h : g.Kept) (ho : g.outline? id = some o) {user : NodeId}
    (huser : user ∈ g.users id) : ∃ o', g.outline? user = some o' := by
  obtain ⟨node, hnode, hstate, hkind, -⟩ := outline?_eq_some_iff.mp ho
  have hcount := h.counted hnode user
  have hmem : user ∈ node.usages := by
    simpa [users, usages, hnode, List.mem_eraseDups] using huser
  have hpos := List.count_pos_iff.mpr hmem
  cases hmember : g.member? user with
  | none =>
    rw [weight_of_not_member hmember] at hcount
    omega
  | some payload =>
    rw [weight_of_member? hmember] at hcount
    -- A user that is a value reads the node, and values read values only.
    cases hvalue : payload.kind.isA .value with
    | false =>
      obtain ⟨o', ho', -⟩ := exists_outline? hmember hvalue
      exact ⟨o', ho'⟩
    | true =>
      have hedge : id ∈ payload.inputEdges := by
        rw [← Payload.edges_of_isValue hvalue]
        exact List.count_pos_iff.mp (by omega)
      obtain ⟨found, hfound, hread⟩ := h.value_of_mem_inputEdges hmember hvalue hedge
      rw [member?_eq_some_iff.mpr ⟨node, hnode, hstate, rfl⟩] at hfound
      obtain rfl := Option.some.inj hfound
      exact absurd (hkind.symm.trans hread) (by simp)

/-- **Control goes from members that are no values to members that are no values**, whether along a
successor edge or from the end of a branch to the merge that uses it. -/
theorem Kept.outline?_of_mem_controlTargets (h : g.Kept) (ho : g.outline? id = some o)
    {target : NodeId} (htarget : target ∈ g.controlTargets id) :
      ∃ o', g.outline? target = some o' := by
  rcases List.mem_append.mp htarget with hsuccessor | hmerge
  · obtain ⟨payload, hmember, -, -, hslots⟩ := member?_of_outline? ho
    rw [successors_of_outline? ho, ← hslots] at hsuccessor
    simp only [List.mem_filterMap, List.mem_map] at hsuccessor
    obtain ⟨_, ⟨slot, hslot, rfl⟩, hset⟩ := hsuccessor
    obtain ⟨found, hfound, hcontrol⟩ :=
      (fills_some hset).mp (h.filled hmember slot (List.mem_append_right _ hslot))
    rw [Payload.family_of_mem_successorSlots hslot] at hcontrol
    obtain ⟨o', ho', -⟩ := exists_outline? hfound (by
      cases hvalue : found.kind.isA .value with
      | false => rfl
      | true => exact absurd (hcontrol.symm.trans (Kind.isA_control_of_isValue hvalue)) (by simp))
    exact ⟨o', ho'⟩
  · split at hmerge
    · exact h.outline?_of_mem_users ho (List.mem_of_mem_filter hmerge)
    · exact absurd hmerge (by simp)

/-- What is said about vertices and their targets holds of all that edges are added between. -/
theorem forall_vertices_foldl {P : NodeId → Prop} {targets : NodeId → List NodeId}
    {ids : List NodeId} (hids : ∀ id ∈ ids, P id ∧ ∀ target ∈ targets id, P target)
    {flow : Digraph NodeId} (hclosed : flow.Closed) (hflow : ∀ id ∈ flow.vertices, P id) :
    (ids.foldl (fun flow id => (targets id).foldl (fun flow target => flow.addEdge id target)
      (flow.addVertex id)) flow).Closed ∧
    ∀ id ∈ (ids.foldl (fun flow id => (targets id).foldl (fun flow target => flow.addEdge id target)
      (flow.addVertex id)) flow).vertices, P id := by
  -- The induction is on the nodes that are still to be added; what was added before is closed and
  -- has the property.
  induction ids generalizing flow with
  | nil => exact ⟨hclosed, hflow⟩
  | cons id ids ih =>
    obtain ⟨hid, htargets⟩ := hids id (by simp)
    have hvertex : (flow.addVertex id).Closed := by
      intro u v hedge
      rw [Digraph.Edge, Digraph.edges_addVertex] at hedge
      rw [Digraph.mem_vertices_addVertex, Digraph.mem_vertices_addVertex]
      exact ⟨Or.inl (hclosed hedge).1, Or.inl (hclosed hedge).2⟩
    rw [List.foldl_cons, Digraph.foldl_addEdge]
    refine ih (fun other hother => hids other (List.mem_cons_of_mem id hother))
      (hvertex.addEdges _) fun other hother => ?_
    rw [Digraph.mem_vertices_addEdges, Digraph.mem_vertices_addVertex] at hother
    rcases hother with (hold | rfl) | ⟨pair, hpair, hend⟩
    · exact hflow other hold
    · exact hid
    · obtain ⟨target, htarget, rfl⟩ := List.mem_map.mp hpair
      rcases hend with rfl | rfl
      · exact hid
      · exact htargets other htarget

/-- The control flow is closed, and all it goes through has an outline. -/
theorem Kept.controlFlow (h : g.Kept) :
    g.controlFlow.Closed ∧ ∀ id ∈ g.controlFlow.vertices, ∃ o, g.outline? id = some o := by
  refine forall_vertices_foldl (fun id hid => ?_)
    (fun hnone => absurd hnone (by simp [Digraph.Edge])) (by simp)
  obtain ⟨o, ho, -⟩ := (mem_membersOf_iff_outline? isValue_of_admits_control).mp hid
  exact ⟨⟨o, ho⟩, fun target htarget => h.outline?_of_mem_controlTargets ho htarget⟩

theorem Kept.outline?_of_mem_vertices (h : g.Kept) (hid : id ∈ g.controlFlow.vertices) :
    ∃ o, g.outline? id = some o := h.controlFlow.2 id hid

/-- A search from a node with an outline finds such nodes only: the last step of the path to what
it finds is an edge of the control flow. -/
theorem Kept.outline?_of_mem_depthFirst (h : g.Kept) {start : NodeId}
    (ho : g.outline? start = some o) (hid : id ∈ g.controlFlow.depthFirst start) :
    ∃ o, g.outline? id = some o := by
  rcases Relation.ReflTransGen.cases_tail (path_of_mem_search (List.mem_reverse.mp hid)) with
    heq | ⟨last, -, hedge⟩
  · exact heq ▸ ⟨o, ho⟩
  · have hnext := Digraph.mem_next_iff.mp (List.mem_reverse.mp hedge)
    exact h.controlFlow.2 id (h.controlFlow.1 hnext).2

namespace Framed

/-- Framed graphs have the same members of every kind that is no value, in the same order. -/
theorem membersOf_eq (h : g.Framed g') {filter : Filter}
    (hfilter : ∀ kind, filter.admits kind = true → kind.isA .value = false) :
    g'.membersOf filter = g.membersOf filter := by
  refine eq_of_mem_iff (g'.pairwise_membersOf filter) (g.pairwise_membersOf filter) fun id => ?_
  rw [mem_membersOf_iff_outline? hfilter, mem_membersOf_iff_outline? hfilter, h.outline? id]

/-- What a complaint is built from, position, name and the description of a node, is the same for
framed graphs. -/
theorem position_eq (h : g.Framed g') : g'.position = g.position := by
  rw [position, position, h.owner]

theorem controlError_eq (h : g.Framed g') : g'.controlError = g.controlError := by
  funext message
  rw [controlError, controlError, h.name, h.position_eq]

theorem remark_eq (h : g.Framed g') : g'.remark = g.remark := by
  funext message
  rw [remark, remark, h.name, h.position_eq]

theorem kind?_eq (h : g.Framed g') (ho : g.outline? id = some o) : g'.kind? id = g.kind? id := by
  rw [kind?_of_outline? ho, kind?_of_outline? ((h.outline? id).trans ho)]

theorem describe_eq (h : g.Framed g') (ho : g.outline? id = some o) :
    g'.describe id = g.describe id := by
  rw [describe, describe, h.kind?_eq ho]

/-! ## 4. What the checks say -/

/-- **The same is said about the terminal node.** -/
theorem checkTerminal_eq (h : g.Framed g') : g'.checkTerminal = g.checkTerminal := by
  have hterminal : ∀ kind : Kind, (Filter.family .terminal).admits kind = true →
      kind.isA .value = false := by
    intro kind hkind
    cases kind <;> first | rfl | exact Bool.noConfusion hkind
  have hends : g'.ends = g.ends := h.membersOf_eq hterminal
  have hdrawn : ∀ id ∈ g.ends, ∃ o, g.outline? id = some o := by
    intro id hid
    obtain ⟨o, ho, -⟩ := (mem_membersOf_iff_outline? hterminal).mp hid
    exact ⟨o, ho⟩
  -- The check looks at the terminal nodes alone: which there are, which have the kind that the
  -- owner asks for, and how the others are described.
  unfold checkTerminal
  rw [h.owner, hends, h.controlError_eq]
  cases g.owner with
  | none => rfl
  | some owner =>
    have hfits : ∀ id ∈ g.ends, decide (g'.kind? id = some owner.role.terminal)
        = decide (g.kind? id = some owner.role.terminal) := by
      intro id hid
      obtain ⟨o, ho⟩ := hdrawn id hid
      rw [h.kind?_eq ho]
    have hmisfits : (g.ends.filter fun id => !decide (g'.kind? id = some owner.role.terminal))
        = g.ends.filter fun id => !decide (g.kind? id = some owner.role.terminal) :=
      List.filter_congr fun id hid => by rw [hfits id hid]
    simp only [List.filter_congr hfits, hmisfits]
    congr 2
    refine List.map_congr_left fun id hid => ?_
    obtain ⟨o, ho⟩ := hdrawn id (List.mem_of_mem_filter hid)
    rw [h.describe_eq ho]

/-- Control goes from a node to the same nodes in framed graphs. -/
theorem controlTargets_eq (h : g.Framed g') (hkept : g.Kept) (ho : g.outline? id = some o) :
    g'.controlTargets id = g.controlTargets id := by
  have ho' : g'.outline? id = some o := (h.outline? id).trans ho
  have husers : g'.users id = g.users id := by
    rw [users, users, usages_of_outline? ho, usages_of_outline? ho']
  -- The merges among the users are told by their kinds, which their outlines have.
  have hmerges : ((g.users id).filter fun user => decide (g'.kind? user = some .merge))
      = (g.users id).filter fun user => decide (g.kind? user = some .merge) := by
    refine List.filter_congr fun user huser => ?_
    obtain ⟨o', ho'⟩ := hkept.outline?_of_mem_users ho huser
    rw [h.kind?_eq ho']
  simp only [controlTargets, successors_of_outline? ho, successors_of_outline? ho', h.kind?_eq ho,
    husers, hmerges]

/-- **Framed graphs have one control flow.** -/
theorem controlFlow_eq (h : g.Framed g') (hkept : g.Kept) : g'.controlFlow = g.controlFlow := by
  unfold controlFlow
  rw [h.membersOf_eq isValue_of_admits_control]
  refine List.foldl_ext _ _ _ fun flow id hid => ?_
  obtain ⟨o, ho, -⟩ := (mem_membersOf_iff_outline? isValue_of_admits_control).mp hid
  rw [h.controlTargets_eq hkept ho]

/-- What is wrong with the way into a node, and the ways out of it, is said from its outline. -/
theorem entryComplaint?_eq (h : g.Framed g') (flow : Digraph NodeId) (ho : g.outline? id = some o) :
    g'.entryComplaint? flow id = g.entryComplaint? flow id := by
  unfold entryComplaint?
  rw [h.kind?_eq ho, h.describe_eq ho]

theorem exitComplaints_eq (h : g.Framed g') (flow : Digraph NodeId) (ho : g.outline? id = some o) :
    g'.exitComplaints flow id = g.exitComplaints flow id := by
  obtain ⟨payload, hmember, hkind, -, hslots⟩ := member?_of_outline? ho
  obtain ⟨payload', hmember', hkind', -, hslots'⟩ := member?_of_outline? ((h.outline? id).trans ho)
  unfold exitComplaints
  rw [payload?_of_member? hmember, payload?_of_member? hmember', h.describe_eq ho]
  simp only [hkind, hkind', hslots, hslots']

/-- **The same is said about the control flow.** -/
theorem checkControlFlow_eq (h : g.Framed g') (hkept : g.Kept) :
    g'.checkControlFlow = g.checkControlFlow := by
  have hstart : ∀ kind : Kind, (Filter.exactly .start).admits kind = true →
      kind.isA .value = false := by
    intro kind hkind
    rw [← of_decide_eq_true hkind]
    rfl
  -- With the same control flow it remains to compare the complaints node by node, and each node
  -- that is complained about is a vertex or was found from the start.
  unfold checkControlFlow
  rw [h.membersOf_eq hstart]
  cases hstarts : g.membersOf (.exactly .start) with
  | nil => rfl
  | cons start others =>
    obtain ⟨o, ho, -⟩ := (mem_membersOf_iff_outline? hstart).mp
      (show start ∈ g.membersOf (.exactly .start) by simp [hstarts])
    have hentries : g.controlFlow.vertices.filterMap (g'.entryComplaint? g.controlFlow)
        = g.controlFlow.vertices.filterMap (g.entryComplaint? g.controlFlow) := by
      refine List.filterMap_congr fun id hid => ?_
      obtain ⟨o, ho⟩ := hkept.outline?_of_mem_vertices hid
      exact h.entryComplaint?_eq _ ho
    have hexits : (g.controlFlow.depthFirst start).flatMap (g'.exitComplaints g.controlFlow)
        = (g.controlFlow.depthFirst start).flatMap (g.exitComplaints g.controlFlow) := by
      refine List.flatMap_congr fun id hid => ?_
      obtain ⟨o, ho⟩ := hkept.outline?_of_mem_depthFirst ho hid
      exact h.exitComplaints_eq _ ho
    have hremarks : ∀ (ids : List NodeId), (∀ id ∈ ids, id ∈ g.controlFlow.vertices) →
        (ids.map fun id => g.remark (g'.describe id ++ " is unreachable from " ++ start.text))
          = ids.map fun id => g.remark (g.describe id ++ " is unreachable from "
            ++ start.text) := by
      refine fun ids hids => List.map_congr_left fun id hid => ?_
      obtain ⟨o, ho⟩ := hkept.outline?_of_mem_vertices (hids id hid)
      rw [h.describe_eq ho]
    simp only [h.controlFlow_eq hkept, hentries, hexits, h.controlError_eq, h.remark_eq]
    rw [hremarks]
    intro id hid
    exact List.mem_of_mem_filter ((List.mergeSort_perm _ _).mem_iff.mp hid)

end Framed

end Graph

end BehaviorGraph
