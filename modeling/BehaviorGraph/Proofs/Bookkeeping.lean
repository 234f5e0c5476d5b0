/-
# Bookkeeping: edges, usages, membership and the pool agree

A graph records the same facts in several places: an edge stands in the payload of its user and in
the usages of its target, membership in the state of a node and in its mark, and a unique member in
the arena and in the pool.  `Graph.Kept` says that **all records agree**, and this module shows
that each primitive change of the graph keeps them in agreement.

The usages of a node are compared with the edges by counting: for every user, as many entries as
edges.  Counting is exact where the order does not matter, and it makes duplicate edges and nodes
that use themselves no special case.
-/
import BehaviorGraph.Proofs.Arena

namespace BehaviorGraph

namespace Graph

/-! ## 1. The invariant -/

/-- Whether a member of a family is there to be pointed to. -/
def Offers (g : Graph) (target : NodeId) (family : Family) : Prop :=
  ∃ payload, g.member? target = some payload ∧ payload.kind.isA family = true

/-- A slot is filled as it has to be: with a member of the family it asks for, or with nothing if
it is optional. -/
def Fills (g : Graph) (slot : Slot) : Prop :=
  match slot.target with
  | none => slot.optional = true
  | some target => g.Offers target slot.family

/-- The number of edges from `user` to `target` that count: **only members have edges that do**. -/
def weight (g : Graph) (user target : NodeId) : Nat :=
  match g.member? user with
  | some payload => payload.edges.count target
  | none => 0

/-- **All records of a graph agree.** -/
structure Kept (g : Graph) : Prop where
  /-- Every slot of every member is filled as it has to be. -/
  filled : ∀ {id payload}, g.member? id = some payload → ∀ slot ∈ payload.slots, g.Fills slot
  /-- A node has one usage for each edge that points to it. -/
  counted : ∀ {id node}, g.node? id = some node → ∀ user, node.usages.count user = g.weight user id
  /-- The marked nodes are the active ones. -/
  marked : ∀ {id node}, g.node? id = some node → (node.member = true ↔ node.state = .active)
  /-- The pool lists the unique members. -/
  pooled : ∀ {payload id},
    (payload, id) ∈ g.pool.entries ↔ g.member? id = some payload ∧ payload.kind.isUnique = true
  /-- The pool lists no payload twice. -/
  keys : g.pool.UniqueKeys

variable {g g' : Graph} {id user target : NodeId} {payload : Payload} {node : Node}

theorem weight_of_member? (h : g.member? user = some payload) (target : NodeId) :
    g.weight user target = payload.edges.count target := by
  simp [weight, h]

theorem weight_of_not_member (h : g.member? user = none) (target : NodeId) :
    g.weight user target = 0 := by
  simp [weight, h]

theorem fills_some {slot : Slot} (h : slot.target = some target) :
    g.Fills slot ↔ g.Offers target slot.family := by
  simp [Fills, h]

theorem fills_none {slot : Slot} (h : slot.target = none) :
    g.Fills slot ↔ slot.optional = true := by
  simp [Fills, h]

/-- More members fill more slots. -/
theorem Fills.mono {slot : Slot} (h : g.Fills slot)
    (hmono : ∀ family, ∀ target ∈ slot.target, g.Offers target family → g'.Offers target family) :
    g'.Fills slot := by
  cases htarget : slot.target with
  | none => exact (fills_none htarget).mpr ((fills_none htarget).mp h)
  | some target =>
    exact (fills_some htarget).mpr
      (hmono _ target (by simp [htarget]) ((fills_some htarget).mp h))

namespace Kept

/-! ## 2. What agreement gives -/

/-- An edge of a member points to a member. -/
theorem member?_of_mem_edges (h : g.Kept) (hmember : g.member? id = some payload)
    (hedge : target ∈ payload.edges) : ∃ payload', g.member? target = some payload' := by
  obtain ⟨slot, hslot, htarget⟩ := Payload.mem_edges_iff.mp hedge
  obtain ⟨payload', hpayload', -⟩ := (fills_some htarget).mp (h.filled hmember slot hslot)
  exact ⟨payload', hpayload'⟩

/-- **No edge that counts leads to a node that is no member.** -/
theorem weight_eq_zero_of_not_member (h : g.Kept) (hnone : g.member? target = none)
    (user : NodeId) : g.weight user target = 0 := by
  cases huser : g.member? user with
  | none => exact weight_of_not_member huser target
  | some payload =>
    rw [weight_of_member? huser]
    refine List.count_eq_zero_of_not_mem fun hedge => ?_
    obtain ⟨payload', hpayload'⟩ := h.member?_of_mem_edges huser hedge
    rw [hnone] at hpayload'
    exact absurd hpayload' (by simp)

/-- A node that is no member has no usages. -/
theorem usages_eq_nil (h : g.Kept) (hnode : g.node? id = some node)
    (hstate : node.state ≠ .active) : node.usages = [] := by
  refine List.eq_nil_iff_forall_not_mem.mpr fun user huser => ?_
  have hcount := h.counted hnode user
  rw [h.weight_eq_zero_of_not_member (member?_eq_none_of_node? hnode hstate)] at hcount
  exact absurd (List.count_pos_iff.mpr huser) (by omega)

/-- A node without usages is pointed to by no member. -/
theorem not_mem_edges_of_usages_nil (h : g.Kept) (hnode : g.node? target = some node)
    (hnil : node.usages = []) (hmember : g.member? user = some payload) :
    target ∉ payload.edges := by
  have hcount := h.counted hnode user
  rw [hnil, weight_of_member? hmember] at hcount
  exact List.count_eq_zero.mp (by simpa using hcount.symm)

/-- **The pool finds exactly the unique members.** -/
theorem pooled?_eq_some_iff (h : g.Kept) :
    g.pooled? payload = some id ↔ g.member? id = some payload ∧ payload.kind.isUnique = true := by
  rw [pooled?, Option.filter_eq_some_iff, h.keys.get?_eq_some_iff, h.pooled]
  constructor
  · exact fun hfound => hfound.1
  · intro hmember
    obtain ⟨node, hnode, hstate, hpayload⟩ := member?_eq_some_iff.mp hmember.1
    exact ⟨hmember, by simp [hnode, Node.isActive, hstate, hpayload]⟩

/-! ## 3. Changes that keep the members -/

/-- A graph with the same members and pool is in agreement if its usages and marks are. -/
theorem of_same_members (h : g.Kept) (hmembers : g'.member? = g.member?) (hpool : g'.pool = g.pool)
    (hcounted : ∀ {id node}, g'.node? id = some node → ∀ user,
      node.usages.count user = g.weight user id)
    (hmarked : ∀ {id node}, g'.node? id = some node →
      (node.member = true ↔ node.state = .active)) : g'.Kept := by
  have hweight : g'.weight = g.weight := by
    funext user target
    simp only [weight, hmembers]
  refine ⟨?_, ?_, hmarked, ?_, ?_⟩
  · intro id payload hmember slot hslot
    rw [hmembers] at hmember
    refine (h.filled hmember slot hslot).mono fun family target _ hoffers => ?_
    simpa only [Offers, hmembers] using hoffers
  · intro id node hnode user
    rw [hweight]
    exact hcounted hnode user
  · intro payload id
    rw [hpool, hmembers]
    exact h.pooled
  · rw [hpool]
    exact h.keys

/-- A new node changes nothing for the others, and nobody uses it yet. -/
theorem push (h : g.Kept) (payload : Payload) : (g.push payload).Kept := by
  refine h.of_same_members (member?_push payload) rfl ?_ ?_
  · intro id node hnode user
    rw [node?_push] at hnode
    by_cases hfresh : id.index = g.nodes.size
    · rw [if_pos hfresh] at hnode
      obtain rfl := Option.some.inj hnode
      have hnone : g.member? id = none := by
        simp [member?, (g.node?_eq_none_iff id).mpr (Nat.le_of_eq hfresh.symm)]
      simp [h.weight_eq_zero_of_not_member hnone]
    · rw [if_neg hfresh] at hnode
      exact h.counted hnode user
  · intro id node hnode
    rw [node?_push] at hnode
    by_cases hfresh : id.index = g.nodes.size
    · rw [if_pos hfresh] at hnode
      obtain rfl := Option.some.inj hnode
      simp
    · rw [if_neg hfresh] at hnode
      exact h.marked hnode

/-- **What happens to a node that is no member before or after concerns nobody.** -/
theorem modify_of_not_member (h : g.Kept) {f : Node → Node} (hnode : g.node? id = some node)
    (hbefore : node.state ≠ .active) (hafter : (f node).state ≠ .active)
    (husages : (f node).usages = node.usages) (hmark : (f node).member = node.member) :
    (g.modify id f).Kept := by
  have hmembers : (g.modify id f).member? = g.member? := by
    funext other
    by_cases hother : other = id
    · subst hother
      have hnew : (g.modify other f).node? other = some (f node) := by simp [hnode]
      rw [member?_eq_none_of_node? hnew hafter, member?_eq_none_of_node? hnode hbefore]
    · simp only [member?, node?_modify_of_ne g id f hother]
  refine h.of_same_members hmembers rfl ?_ ?_
  · intro other node' hnode' user
    by_cases hother : other = id
    · subst hother
      rw [node?_modify_self, hnode, Option.map_some] at hnode'
      obtain rfl := Option.some.inj hnode'
      rw [husages]
      exact h.counted hnode user
    · rw [node?_modify_of_ne g id f hother] at hnode'
      exact h.counted hnode' user
  · intro other node' hnode'
    by_cases hother : other = id
    · subst hother
      rw [node?_modify_self, hnode, Option.map_some] at hnode'
      obtain rfl := Option.some.inj hnode'
      rw [hmark, h.marked hnode]
      simp [hbefore, hafter]
    · rw [node?_modify_of_ne g id f hother] at hnode'
      exact h.marked hnode'

/-! ## 4. One member comes, goes or changes

Attaching, deleting and redirecting a node all change the payload of one node as a member and
nothing about the others.  What is left to say in each case is how usages and pool follow. -/

/-- Members other than the changed node still are offered. -/
theorem offers_of_update {new : Option Payload} {family : Family}
    (hmembers : ∀ other, g'.member? other = if other = id then new else g.member? other)
    (hne : target ≠ id) (h : g.Offers target family) : g'.Offers target family := by
  obtain ⟨payload, hpayload, hfamily⟩ := h
  exact ⟨payload, by rw [hmembers, if_neg hne, hpayload], hfamily⟩

/-- **A change of one member keeps agreement if slots are filled, usages follow the edges of the
changed node, and marks and pool follow the members.** -/
theorem of_update (h : g.Kept) {new : Option Payload}
    (hmembers : ∀ other, g'.member? other = if other = id then new else g.member? other)
    (hfilled : ∀ {user payload}, g'.member? user = some payload →
      ∀ slot ∈ payload.slots, g'.Fills slot)
    (hcounted : ∀ {target node'}, g'.node? target = some node' →
      ∃ node, g.node? target = some node ∧ ∀ user, node'.usages.count user
        = if user = id then (new.elim [] Payload.edges).count target else node.usages.count user)
    (hmarked : ∀ {id node}, g'.node? id = some node →
      (node.member = true ↔ node.state = .active))
    (hpooled : ∀ {payload id}, (payload, id) ∈ g'.pool.entries
      ↔ g'.member? id = some payload ∧ payload.kind.isUnique = true)
    (hkeys : g'.pool.UniqueKeys) : g'.Kept := by
  refine ⟨hfilled, ?_, hmarked, hpooled, hkeys⟩
  intro target node' hnode' user
  obtain ⟨node, hnode, hcount⟩ := hcounted hnode'
  rw [hcount user]
  unfold weight
  rw [hmembers]
  by_cases huser : user = id
  · rw [if_pos huser, if_pos huser]
    cases new <;> rfl
  · rw [if_neg huser, if_neg huser]
    exact h.counted hnode user

end Kept

/-! ## 5. Attaching one node -/

namespace Attachment

variable {a : Attachment}

theorem node?_enroll (a : Attachment) (id : NodeId) (payload : Payload) (other : NodeId) :
    (a.enroll id payload).graph.node? other = (a.graph.node? other).map fun node =>
      let node := if other = id then
        { node with payload := payload, state := .active, member := true } else node
      { node with usages := node.usages ++ List.replicate (payload.edges.count other) id } := by
  have hnodes : ∀ graph : Graph, (if payload.kind.isUnique then
      { graph with pool := graph.pool.insert payload id } else graph).node? other
        = graph.node? other := by
    intro graph
    split <;> rfl
  simp only [enroll]
  rw [node?_addUsages, hnodes, node?_modify]
  by_cases h : other = id
  · subst h
    cases a.graph.node? other <;> simp
  · cases a.graph.node? other <;> simp [h]

theorem member?_enroll (hnode : a.graph.node? id = some node) (other : NodeId) :
    (a.enroll id payload).graph.member? other
      = if other = id then some payload else a.graph.member? other := by
  unfold member?
  rw [node?_enroll]
  by_cases h : other = id
  · subst h
    simp [hnode, Node.isActive]
  · cases a.graph.node? other <;> simp [h, Node.isActive]

theorem pool_enroll (a : Attachment) (id : NodeId) (payload : Payload) :
    (a.enroll id payload).graph.pool
      = if payload.kind.isUnique then a.graph.pool.insert payload id else a.graph.pool := by
  simp only [enroll, pool_addUsages]
  split <;> rfl

/-- The pool follows: it has an entry for the enrolled node if that is unique. -/
theorem mem_pool_enroll_iff (h : a.graph.Kept) (hnode : a.graph.node? id = some node)
    (hstate : node.state ≠ .active)
    (hfresh : payload.kind.isUnique = true → ∀ other, a.graph.member? other ≠ some payload)
    {payload' : Payload} {other : NodeId} :
    (payload', other) ∈ (a.enroll id payload).graph.pool.entries ↔
      (a.enroll id payload).graph.member? other = some payload' ∧
      payload'.kind.isUnique = true := by
  have hnone : a.graph.member? id = none := member?_eq_none_of_node? hnode hstate
  rw [pool_enroll, member?_enroll hnode]
  by_cases hunique : payload.kind.isUnique = true
  · rw [if_pos hunique, Table.mem_insert_iff, h.pooled, Prod.mk.injEq]
    by_cases hother : other = id
    · subst hother
      simp only [hnone, if_pos]
      constructor
      · rintro (⟨⟨hbad, -⟩, -⟩ | ⟨rfl, -⟩)
        · exact absurd hbad (by simp)
        · exact ⟨rfl, hunique⟩
      · rintro ⟨hpayload, -⟩
        exact Or.inr ⟨(Option.some.inj hpayload).symm, trivial⟩
    · simp only [hother, and_false, or_false, if_false]
      constructor
      · exact fun hleft => hleft.1
      · intro hright
        refine ⟨hright, ?_⟩
        rintro rfl
        exact hfresh hunique other hright.1
  · rw [if_neg hunique, h.pooled]
    by_cases hother : other = id
    · subst hother
      rw [if_pos rfl, hnone]
      constructor
      · exact fun hleft => absurd hleft.1 (by simp)
      · rintro ⟨hpayload, hunique'⟩
        rw [Option.some.inj hpayload] at hunique
        exact absurd hunique' hunique
    · rw [if_neg hother]

/-- **Enrolling a detached node whose slots are filled keeps agreement**, if no member has its
payload in case it is unique. -/
theorem kept_enroll (h : a.graph.Kept) (hnode : a.graph.node? id = some node)
    (hstate : node.state ≠ .active) (hfilled : ∀ slot ∈ payload.slots, a.graph.Fills slot)
    (hfresh : payload.kind.isUnique = true → ∀ other, a.graph.member? other ≠ some payload) :
    (a.enroll id payload).graph.Kept := by
  have hnone : a.graph.member? id = none := member?_eq_none_of_node? hnode hstate
  have hmembers : ∀ other, (a.enroll id payload).graph.member? other
      = if other = id then some payload else a.graph.member? other := member?_enroll hnode
  have hoffers : ∀ {target : NodeId} {family : Family}, a.graph.Offers target family →
      (a.enroll id payload).graph.Offers target family := by
    intro target family hoffer
    refine Kept.offers_of_update hmembers ?_ hoffer
    rintro rfl
    obtain ⟨payload', hpayload', -⟩ := hoffer
    rw [hnone] at hpayload'
    exact absurd hpayload' (by simp)
  refine h.of_update hmembers ?_ ?_ ?_ ?_ ?_
  · intro user payload' hmember slot hslot
    rw [hmembers] at hmember
    have hslot' : a.graph.Fills slot := by
      by_cases huser : user = id
      · rw [if_pos huser] at hmember
        obtain rfl := Option.some.inj hmember
        exact hfilled slot hslot
      · rw [if_neg huser] at hmember
        exact h.filled hmember slot hslot
    exact hslot'.mono fun family target _ => hoffers
  · intro target node' hnode'
    rw [node?_enroll] at hnode'
    obtain ⟨old, hold, rfl⟩ := Option.map_eq_some_iff.mp hnode'
    refine ⟨old, hold, fun user => ?_⟩
    have husages : (if target = id then
        { old with payload := payload, state := .active, member := true } else old : Node).usages
          = old.usages := by split <;> rfl
    simp only [husages, List.count_append, List.count_replicate, Option.elim]
    -- The node itself had no edges that counted before.
    by_cases huser : user = id
    · subst huser
      rw [h.counted hold user, weight_of_not_member hnone]
      simp
    · simp [huser, Ne.symm huser]
  · intro other node' hnode'
    rw [node?_enroll] at hnode'
    obtain ⟨old, hold, rfl⟩ := Option.map_eq_some_iff.mp hnode'
    by_cases hother : other = id
    · simp [hother]
    · simpa [hother] using h.marked hold
  · exact mem_pool_enroll_iff h hnode hstate hfresh
  · rw [pool_enroll]
    split
    · exact h.keys.insert payload id
    · exact h.keys

/-- Giving a detached node up keeps agreement: it was no member. -/
theorem kept_discard (h : a.graph.Kept) (hnode : a.graph.node? id = some node)
    (hstate : node.state ≠ .active) (member : NodeId) : (a.discard id member).graph.Kept :=
  h.modify_of_not_member hnode hstate (by simp) rfl rfl

end Attachment

/-! ## 6. Deleting one node -/

/-- The graph after a member nobody uses is deleted. -/
def withdraw (g : Graph) (id : NodeId) (payload : Payload) : Graph :=
  (g.unregister id payload).modify id fun node => { node with state := .deleted, member := false }

theorem node?_unregister (g : Graph) (id : NodeId) (payload : Payload) (other : NodeId) :
    (g.unregister id payload).node? other = (g.removeUsages id payload.edges).node? other := by
  unfold unregister
  split <;> rfl

theorem node?_withdraw (g : Graph) (id : NodeId) (payload : Payload) (other : NodeId) :
    (g.withdraw id payload).node? other = (g.node? other).map fun node =>
      let node := { node with
        usages := (fun users => users.erase id)^[payload.edges.count other] node.usages }
      if other = id then { node with state := .deleted, member := false } else node := by
  rw [withdraw, node?_modify, node?_unregister, node?_unregister, node?_removeUsages,
    node?_removeUsages]
  by_cases h : other = id
  · subst h
    cases g.node? other <;> simp
  · cases g.node? other <;> simp [h]

theorem member?_withdraw (g : Graph) (id : NodeId) (payload : Payload) (other : NodeId) :
    (g.withdraw id payload).member? other = if other = id then none else g.member? other := by
  unfold member?
  rw [node?_withdraw]
  by_cases h : other = id
  · subst h
    cases g.node? other <;> simp [Node.isActive]
  · cases g.node? other <;> simp [h, Node.isActive]

theorem pool_withdraw (g : Graph) (id : NodeId) (payload : Payload) :
    (g.withdraw id payload).pool
      = if payload.kind.isUnique then unpool g.pool payload id else g.pool := by
  rw [withdraw, pool_modify, unregister]
  split
  · rw [pool_removeUsages]
  · rw [pool_removeUsages]

/-- The pool follows: it has no entry for the withdrawn node any more. -/
theorem mem_pool_withdraw_iff (h : g.Kept) (hmember : g.member? id = some payload)
    {payload' : Payload} {other : NodeId} :
    (payload', other) ∈ (g.withdraw id payload).pool.entries ↔
      (g.withdraw id payload).member? other = some payload' ∧ payload'.kind.isUnique = true := by
  rw [pool_withdraw, member?_withdraw]
  have hentry : payload.kind.isUnique = true → g.pool.get? payload = some id :=
    fun hunique => h.keys.get?_eq_some_iff.mpr (h.pooled.mpr ⟨hmember, hunique⟩)
  by_cases hunique : payload.kind.isUnique = true
  · rw [if_pos hunique, unpool, if_pos (hentry hunique), Table.mem_erase_iff, h.pooled]
    by_cases hother : other = id
    · subst hother
      rw [if_pos rfl, hmember]
      constructor
      · rintro ⟨⟨hpayload, -⟩, hne⟩
        exact absurd (Option.some.inj hpayload).symm hne
      · exact fun hright => absurd hright.1 (by simp)
    · rw [if_neg hother]
      constructor
      · exact fun hleft => hleft.1
      · intro hright
        refine ⟨hright, ?_⟩
        rintro rfl
        -- Two members with one unique payload would share one entry of the pool.
        have hsame := h.keys.get?_eq_some_iff.mpr (h.pooled.mpr hright)
        rw [hentry hunique] at hsame
        exact hother (Option.some.inj hsame).symm
  · rw [if_neg hunique, h.pooled]
    by_cases hother : other = id
    · subst hother
      rw [if_pos rfl, hmember]
      constructor
      · rintro ⟨hpayload, hunique'⟩
        rw [Option.some.inj hpayload] at hunique
        exact absurd hunique' hunique
      · exact fun hright => absurd hright.1 (by simp)
    · rw [if_neg hother]

/-- **Withdrawing a member nobody uses keeps agreement.** -/
theorem kept_withdraw (h : g.Kept) (hnode : g.node? id = some node) (hstate : node.state = .active)
    (hnil : node.usages = []) : (g.withdraw id node.payload).Kept := by
  have hmember : g.member? id = some node.payload :=
    member?_eq_some_iff.mpr ⟨node, hnode, hstate, rfl⟩
  have hmembers := g.member?_withdraw id node.payload
  refine h.of_update hmembers ?_ ?_ ?_ ?_ ?_
  · intro user payload hpayload slot hslot
    rw [hmembers] at hpayload
    by_cases huser : user = id
    · rw [if_pos huser] at hpayload
      exact absurd hpayload (by simp)
    · rw [if_neg huser] at hpayload
      refine (h.filled hpayload slot hslot).mono fun family target htarget hoffer => ?_
      refine Kept.offers_of_update hmembers ?_ hoffer
      rintro rfl
      exact h.not_mem_edges_of_usages_nil hnode hnil hpayload
        (Payload.mem_edges_iff.mpr ⟨slot, hslot, htarget⟩)
  · intro target node' hnode'
    rw [node?_withdraw] at hnode'
    obtain ⟨old, hold, rfl⟩ := Option.map_eq_some_iff.mp hnode'
    refine ⟨old, hold, fun user => ?_⟩
    have husages : ∀ users : List NodeId, (if target = id then
        { old with usages := users, state := .deleted, member := false }
          else { old with usages := users } : Node).usages = users := by
      intro users
      split <;> rfl
    simp only [husages, count_iterate_erase, Option.elim, List.count_nil]
    by_cases huser : user = id
    · subst huser
      rw [if_pos rfl, if_pos rfl, h.counted hold user, weight_of_member? hmember]
      omega
    · rw [if_neg huser, if_neg huser]
  · intro other node' hnode'
    rw [node?_withdraw] at hnode'
    obtain ⟨old, hold, rfl⟩ := Option.map_eq_some_iff.mp hnode'
    by_cases hother : other = id
    · simp [hother]
    · simpa [hother] using h.marked hold
  · exact mem_pool_withdraw_iff h hmember
  · rw [pool_withdraw]
    split
    · unfold unpool
      split
      · exact h.keys.erase node.payload
      · exact h.keys
    · exact h.keys

/-- A member nobody uses can be deleted. -/
theorem delete_eq_withdraw (hnode : g.node? id = some node) (hstate : node.state = .active)
    (hnil : node.usages = []) :
    (delete id g).result = .ok () ∧ (delete id g).state = g.withdraw id node.payload := by
  simp [delete, hnode, Node.isDeleted, Node.isActive, hstate, hnil, withdraw]

/-- **Deleting keeps agreement, whatever is deleted.** -/
theorem delete_kept (h : g.Kept) (id : NodeId) : (delete id g).state.Kept := by
  cases hnode : g.node? id with
  | none => simpa [delete, hnode] using h
  | some node =>
    by_cases hnil : node.usages = []
    · cases hstate : node.state with
      | active =>
        rw [(delete_eq_withdraw hnode hstate hnil).2]
        exact kept_withdraw h hnode hstate hnil
      | deleted => simpa [delete, hnode, Node.isDeleted, hstate] using h
      | detached =>
        have hmark : node.member = false := by simpa [hstate] using h.marked hnode
        have hkept :
            (g.modify id fun node => { node with state := .deleted, member := false }).Kept :=
          h.modify_of_not_member hnode (by simp [hstate]) (by simp) rfl hmark.symm
        simpa [delete, hnode, Node.isDeleted, Node.isActive, hstate, hnil] using hkept
    · have hsame : (delete id g).state = g := by
        cases hdeleted : node.isDeleted <;> simp [delete, hnode, hdeleted, hnil]
      rw [hsame]
      exact h

/-- A graph without nodes has nothing to disagree about. -/
theorem kept_empty (name : String) : (Graph.empty name).Kept := by
  have hnode : ∀ id, (Graph.empty name).node? id = none := fun id => by simp [node?, Graph.empty]
  have hmember : ∀ id, (Graph.empty name).member? id = none := fun id => by simp [member?, hnode]
  refine ⟨?_, ?_, ?_, ?_, Table.uniqueKeys_empty⟩
  · intro id payload h
    rw [hmember] at h
    exact absurd h (by simp)
  · intro id node h
    rw [hnode] at h
    exact absurd h (by simp)
  · intro id node h
    rw [hnode] at h
    exact absurd h (by simp)
  · intro payload id
    rw [hmember]
    simp [Graph.empty, Table.empty]

end Graph

end BehaviorGraph
