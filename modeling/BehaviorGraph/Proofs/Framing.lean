/-
# What attaching leaves alone

Attaching may stop at a fault anywhere, and by then it may have enrolled some of the nodes it came
to, given others up and added to the pool.  `Graph.Undisturbed` says what nobody else has to care
about: **members are only used more, deleted nodes and detached nodes that were not asked for are
as they were, and the pool forgets nothing.**

The trace of the walk says which nodes may have changed at all.  What they gained as users is a
matter of counting: the records agree before and after, so more usages of one user are more edges
of it, and only a node that was detached can have come to have more that count.
-/
import BehaviorGraph.Proofs.Attachable
import BehaviorGraph.Proofs.Histories

namespace BehaviorGraph

namespace Graph

variable {g g' : Graph} {id user : NodeId} {payload : Payload} {node node' : Node}
  {gained : List NodeId}

/-! ## 1. What tells one node -/

/-- **A node that is no member is told by its state and payload.** -/
theorem Kept.node_eq_of_inactive (h : g.Kept) (h' : g'.Kept) (hnode : g.node? id = some node)
    (hnode' : g'.node? id = some node') (hstate : node.state ≠ .active)
    (hsame : node'.state = node.state)
    (hpayload : node'.payload = node.payload) : node' = node := by
  have hstate' : node'.state ≠ .active := hsame ▸ hstate
  have husages : node'.usages = node.usages := by
    rw [h.usages_eq_nil hnode hstate, h'.usages_eq_nil hnode' hstate']
  have hmark : node'.member = node.member := by
    rw [Bool.eq_iff_iff, h'.marked hnode', h.marked hnode, hsame]
  obtain ⟨payload, state, member, usages⟩ := node
  obtain ⟨payload', state', member', usages'⟩ := node'
  obtain rfl : payload' = payload := hpayload
  obtain rfl : state' = state := hsame
  obtain rfl : member' = member := hmark
  obtain rfl : usages' = usages := husages
  rfl

/-- A member that only grew has the edges it had. -/
theorem Grown.weight_eq (hgrown : g.Grown g') (hmember : g.member? user = some payload)
    (target : NodeId) :
    g'.weight user target = g.weight user target := by
  rw [weight_of_member? hmember, weight_of_member? (hgrown.member? hmember)]

/-- **Who came to use a node was detached before and is a member now.** -/
theorem Grown.detached_of_mem_gained (hgrown : g.Grown g') (h : g.Kept) (h' : g'.Kept)
    (hnode : g.node? id = some node) (hnode' : g'.node? id = some node')
    (husages : node'.usages = node.usages ++ gained) (hin : user ∈ gained) :
    (∃ before, g.node? user = some before ∧ before.state = .detached) ∧
      g'.isActive user = true := by
  have hmore : g.weight user id < g'.weight user id := by
    rw [← h.counted hnode user, ← h'.counted hnode' user, husages, List.count_append]
    exact Nat.lt_add_of_pos_right (List.count_pos_iff.mpr hin)
  cases hmember' : g'.member? user with
  | none =>
    rw [weight_of_not_member hmember'] at hmore
    exact absurd hmore (Nat.not_lt_zero _)
  | some payload =>
    refine ⟨?_, isActive_iff.mpr ⟨payload, hmember'⟩⟩
    obtain ⟨after, hafter, hactive, rfl⟩ := member?_eq_some_iff.mp hmember'
    obtain ⟨before, hbefore⟩ : ∃ before, g.node? user = some before :=
      exists_node?_of_lt (hgrown.size ▸ lt_size_of_node? hafter)
    refine ⟨before, hbefore, by_contra fun hsettled => ?_⟩
    obtain ⟨after', hafter', hbetween⟩ := hgrown.node hbefore
    obtain rfl := Option.some.inj (hafter.symm.trans hafter')
    -- A node that was settled as a member had all its edges before.
    have hmember : g.member? user = some before.payload :=
      member?_eq_some_iff.mpr ⟨before, hbefore,
        (hbetween.settled hsettled).1.symm.trans hactive, rfl⟩
    rw [hgrown.weight_eq hmember] at hmore
    exact Nat.lt_irrefl _ hmore

/-- What the pool finds it still finds when members are only added. -/
theorem Grown.pool (hgrown : g.Grown g') (h : g.Kept) (h' : g'.Kept)
    (hpooled : g.pool.get? payload = some id) : g'.pool.get? payload = some id := by
  rw [h.keys.get?_eq_some_iff, h.pooled] at hpooled
  rw [h'.keys.get?_eq_some_iff, h'.pooled]
  exact ⟨hgrown.member? hpooled.1, hpooled.2⟩

/-! ## 2. The frame of attaching -/

/-- **What attaching `id` leaves alone.** -/
structure Undisturbed (g : Graph) (id : NodeId) (g' : Graph) : Prop where
  size : g'.nodes.size = g.nodes.size
  /-- A member is only used more, and by nodes that were detached and are members now. -/
  members : ∀ {other node}, g.node? other = some node → node.state = .active → ∃ gained,
    g'.node? other = some { node with usages := node.usages ++ gained } ∧
    ∀ user ∈ gained, (∃ before, g.node? user = some before ∧ before.state = .detached) ∧
      g'.isActive user = true
  deleted : ∀ {other node}, g.node? other = some node → node.state = .deleted →
    g'.node? other = some node
  /-- A detached node is touched only if it is asked for. -/
  apart : ∀ {other node}, g.node? other = some node → node.state = .detached →
    ¬ g.AsksFor id other →
    g'.node? other = some node
  pool : ∀ {payload other}, g.pool.get? payload = some other → g'.pool.get? payload = some other

/-- A member keeps everything but its usages. -/
theorem Grown.member (hgrown : g.Grown g') (hnode : g.node? id = some node)
    (hactive : node.state = .active) :
    ∃ gained, g'.node? id = some { node with usages := node.usages ++ gained } := by
  obtain ⟨node', hnode', hgrow⟩ := hgrown.node hnode
  obtain ⟨hstate, hpayload, hmark⟩ := hgrow.settled (by simp [hactive])
  obtain ⟨gained, husages⟩ := hgrow.usages
  refine ⟨gained, hnode'.trans (congrArg some ?_)⟩
  rw [husages, ← hstate, ← hpayload, ← hmark]

/-- **Attaching never disturbs the members**, wherever it stops: the arena keeps its size; a node
that was active keeps its payload, state and graph, and behind its former usages it gains only
users that were detached and are active now; deleted nodes, detached nodes that are not asked for,
and entries of the pool stay. -/
theorem Reachable.attaching_spares (h : g.Reachable) (id : NodeId) :
    Undisturbed g id (attach id g).state := by
  have hkept := h.kept
  have hkept' := attach_kept hkept id
  have hgrown := attach_grown hkept id
  refine ⟨hgrown.size, fun {other node} hnode hactive => ?_, fun {other node} hnode hdeleted => ?_,
    fun {other node} hnode hdetached hapart => ?_, hgrown.pool hkept hkept'⟩
  · obtain ⟨gained, hnode'⟩ := hgrown.member hnode hactive
    exact ⟨gained, hnode', fun user hin => hgrown.detached_of_mem_gained hkept hkept' hnode
      hnode' rfl hin⟩
  · obtain ⟨node', hnode', hgrow⟩ := hgrown.node hnode
    obtain ⟨hstate, hpayload, -⟩ := hgrow.settled (by simp [hdeleted])
    rw [hnode', hkept.node_eq_of_inactive hkept' hnode hnode' (by simp [hdeleted]) hstate hpayload]
  · obtain ⟨a, rest, htracing, hend, -⟩ := attach_traced hkept id
    rw [hend] at hkept' ⊢
    have hspared : a.resolved.get? other = none := by
      cases hrep : a.resolved.get? other with
      | none => rfl
      | some rep => exact absurd (htracing.left hrep).asked hapart
    obtain ⟨node', hnode', hstate, hpayload⟩ := htracing.spared hnode hspared
    rw [hnode', hkept.node_eq_of_inactive hkept' hnode hnode' (by simp [hdetached]) hstate hpayload]

/-- The call has one argument that can be attached and one that cannot.  The first is attached
before the fault and uses the parameter, which is what it was otherwise; the deleted node and the
pool are as they were. -/
theorem attaching_spares_before_fault :
    let g := ([.add (.param "p" (.uint 8)), .add (.readReg "r" (.uint 8)), .delete ⟨1⟩,
      .create (.truncate ⟨0⟩ (.uint 4)), .create (.truncate ⟨9⟩ (.uint 4)),
      .create (.builtInCall [⟨2⟩, ⟨3⟩] .add (.uint 4))] : List Move).foldl
        (fun g move => move.after g) (empty "f")
    (attach ⟨4⟩ g).result = .error (.unknownNode ⟨9⟩) ∧
    (attach ⟨4⟩ g).state.usages ⟨0⟩ = [⟨2⟩] ∧
    (attach ⟨4⟩ g).state.node? ⟨1⟩ = some { payload := .readReg "r" (.uint 8), state := .deleted } ∧
    (attach ⟨4⟩ g).state.pool.get? (.param "p" (.uint 8)) = some ⟨0⟩ :=
  ⟨by cbv, by cbv, ((reachable_foldl "f" _).attaching_spares ⟨4⟩).deleted (by cbv) rfl,
    ((reachable_foldl "f" _).attaching_spares ⟨4⟩).pool (by cbv)⟩

end Graph

end BehaviorGraph
