/-
# Closures of detached nodes

Attaching a node takes in the detached nodes that are reached from it through detached nodes, its
closure (`Graph.InClosure`).  What can be attached was said inductively (`Graph.Attachable`); here
it is said of the closure as a whole: the node is there, the edges inside the closure have no
cycle, and every edge out of it has a target that fits and was not deleted (`Graph.WellFormed`).
**The two come to the same** (`attachable_iff_wellFormed`).

A closure that is attached is resolved (`Graph.Resolves`): a member stands for each of its nodes,
and the edges of those that became members lead to who stands for their former targets.  The walk
has to keep in mind that who stands for a target does not change any more once the node that has
the edge is left (`Attachment.Redirecting`).

The walk has a bound on the nodes it enters.  `Attachment.ComesTo` is the walk without it, and
**the walk ends on every graph, with cycles or without, before the bound is met** (`comesTo_walk`).
-/
import BehaviorGraph.Proofs.Attachable
import BehaviorGraph.Proofs.Histories

namespace BehaviorGraph

namespace Graph

variable {g g' : Graph} {id target root rep : NodeId} {payload : Payload}
  {node node' : Node} {slot : Slot}

/-! ## 1. Well-formed closures -/

/-- **The closure of a node**: the detached nodes that are reached from it through detached nodes.
-/
def InClosure (g : Graph) (root id : NodeId) : Prop :=
  g.AsksFor root id ∧ ∃ node, g.node? id = some node ∧ node.state = .detached

/-- An edge between two nodes of a closure. -/
def Inner (g : Graph) (root id target : NodeId) : Prop :=
  g.InClosure root id ∧ g.InClosure root target ∧ target ∈ g.edges id

/-- **A closure that can be attached as a whole.** -/
structure WellFormed (g : Graph) (root : NodeId) : Prop where
  /-- The node is there. -/
  there : ∃ node, g.node? root = some node ∧ node.state ≠ .deleted
  /-- No edges of the closure lead round in a circle. -/
  loopless : ∀ id, ¬ Relation.TransGen (g.Inner root) id id
  /-- Every edge of the closure has a target that is there and of the family the slot asks for. -/
  fitting : ∀ {id node slot target}, g.InClosure root id → g.node? id = some node →
    slot ∈ node.payload.slots → slot.target = some target →
      ∃ found, g.node? target = some found ∧ found.state ≠ .deleted ∧
        found.kind.isA slot.family = true

theorem mem_edges_of_node? (hnode : g.node? id = some node) :
    target ∈ g.edges id ↔ target ∈ node.payload.edges := by
  simp [edges, payload?, hnode]

theorem InClosure.state (h : g.InClosure root id) (hnode : g.node? id = some node) :
    node.state = .detached := by
  obtain ⟨-, node', hnode', hstate⟩ := h
  rwa [Option.some.inj (hnode.symm.trans hnode')]

theorem InClosure.index_lt_size (h : g.InClosure root id) : id.index < g.nodes.size := by
  obtain ⟨-, node, hnode, -⟩ := h
  exact lt_size_of_node? hnode

theorem Inner.pulls (h : g.Inner root id target) : g.Pulls id target := by
  obtain ⟨⟨-, node, hnode, hstate⟩, -, hin⟩ := h
  exact ⟨node, hnode, hstate, (mem_edges_of_node? hnode).mp hin⟩

/-- What can be attached has a well-formed closure. -/
theorem Attachable.wellFormed (h : g.Attachable root) : g.WellFormed root where
  there := by
    obtain ⟨node, hnode⟩ := h.exists_node?
    exact ⟨node, hnode, h.state_ne_deleted hnode⟩
  loopless := by
    intro id hcycle
    obtain ⟨next, ⟨⟨hasks, -⟩, -⟩, -⟩ := Relation.TransGen.head'_iff.mp hcycle
    exact (h.of_asksFor hasks).not_self (Relation.TransGen.mono (fun _ _ => Inner.pulls) _ _ hcycle)
  fitting := by
    intro id node slot target hclosure hnode hslot htarget
    cases h.of_asksFor hclosure.1 with
    | member hmember =>
      rw [member?_eq_none_of_node? hnode (by simp [hclosure.state hnode])] at hmember
      exact absurd hmember (by simp)
    | detached hnode' hstate hslots htargets =>
      obtain rfl := Option.some.inj (hnode.symm.trans hnode')
      have hcheck := hslots slot hslot
      rw [htarget] at hcheck
      exact Attachment.checkSlot_some_iff.mp hcheck

/-- A relation without cycles on the nodes of a closure can be followed only finitely often. -/
theorem WellFormed.wellFounded (h : g.WellFormed root) :
    WellFounded fun target id : { id // g.InClosure root id } => g.Inner root id target := by
  have hfinite : Finite { id // g.InClosure root id } := by
    refine Finite.of_injective (fun id => (⟨id.val.index, id.property.index_lt_size⟩ :
      Fin g.nodes.size)) ?_
    rintro ⟨⟨index⟩, _⟩ ⟨⟨index'⟩, _⟩ hsame
    simpa using hsame
  let below (target id : { id // g.InClosure root id }) : Prop := g.Inner root id target
  have htrans : IsTrans _ (Relation.TransGen below) := ⟨fun _ _ _ => .trans⟩
  have hirrefl : Std.Irrefl (Relation.TransGen below) := by
    refine ⟨fun id hcycle => h.loopless id.val (Relation.transGen_swap.mp ?_)⟩
    exact Relation.TransGen.lift Subtype.val (fun _ _ hinner => hinner) _ _ hcycle
  have hwf : WellFounded (Relation.TransGen below) := Finite.wellFounded_of_trans_of_irrefl _
  exact Subrelation.wf (fun {_ _} (hinner : below _ _) => Relation.TransGen.single hinner) hwf

/-- What is asked for and is there can be attached if it is a member or belongs to the closure. -/
theorem attachable_of_asksFor (hasks : g.AsksFor root id) (hnode : g.node? id = some node)
    (hstate : node.state ≠ .deleted) (hclosure : g.InClosure root id → g.Attachable id) :
    g.Attachable id := by
  cases hstate' : node.state with
  | active => exact .member (member?_eq_some_iff.mpr ⟨node, hnode, hstate', rfl⟩)
  | detached => exact hclosure ⟨hasks, node, hnode, hstate'⟩
  | deleted => exact absurd hstate' hstate

/-- **Every node of a well-formed closure can be attached.** -/
theorem WellFormed.attachable_of_inClosure (h : g.WellFormed root) (hid : g.InClosure root id) :
    g.Attachable id := by
  refine h.wellFounded.induction (C := fun id => g.Attachable id.val) ⟨id, hid⟩ ?_
  rintro ⟨id, hid⟩ ih
  obtain ⟨hasks, node, hnode, hstate⟩ := show g.InClosure root id from hid
  refine .detached hnode hstate (fun slot hslot => ?_) fun target hin => ?_
  · cases htarget : slot.target with
    | none =>
      refine Attachment.checkSlot_none_iff.mpr ((Payload.legal_of_mem_slots hslot).resolve_right ?_)
      simp [htarget]
    | some target => exact Attachment.checkSlot_some_iff.mpr (h.fitting hid hnode hslot htarget)
  · obtain ⟨slot, hslot, htarget⟩ := Payload.mem_edges_iff.mp hin
    obtain ⟨found, hfound, hnotdeleted, -⟩ := h.fitting hid hnode hslot htarget
    refine attachable_of_asksFor (hasks.tail ⟨node, hnode, hstate, hin⟩) hfound hnotdeleted
      fun hinner => ?_
    exact ih ⟨target, hinner⟩ ⟨hid, hinner, (mem_edges_of_node? hnode).mpr hin⟩

/-- **The nodes that can be attached are those with a well-formed closure.** -/
theorem attachable_iff_wellFormed : g.Attachable root ↔ g.WellFormed root := by
  refine ⟨Attachable.wellFormed, fun h => ?_⟩
  obtain ⟨node, hnode, hstate⟩ := h.there
  exact attachable_of_asksFor .refl hnode hstate h.attachable_of_inClosure

/-! ## 2. Edges of the nodes that are left -/

namespace Attachment

variable {a a' : Attachment} {tasks rest : List (Task NodeId)} {reports : List Report} {bound : Nat}

/-- **How far a walk has got with the edges**: whoever was left had all its targets settled, and
whoever became a member has edges to who stands for them. -/
structure Redirecting (g : Graph) (root : NodeId) (tasks : List (Task NodeId)) (a : Attachment) :
    Prop where
  tracing : Tracing g root tasks a
  settled : ∀ {id rep node}, a.resolved.get? id = some rep → g.node? id = some node →
    ∀ target ∈ node.payload.edges, a.Settled target
  redirected : ∀ {id node}, a.resolved.get? id = some id → g.node? id = some node →
    a.graph.member? id = some (node.payload.mapEdges a.representative)

theorem redirecting_start (h : g.Kept) (root : NodeId) :
    Redirecting g root [.enter root] ⟨g, [], Table.empty⟩ where
  tracing := tracing_start h root
  settled := fun hrep => absurd hrep (by simp [Table.get?_empty])
  redirected := fun hrep => absurd hrep (by simp [Table.get?_empty])

/-- A detached node is not settled. -/
theorem Tracing.not_settled (h : Tracing g root tasks a) (hnode : a.graph.node? id = some node)
    (hstate : node.state = .detached) : ¬ a.Settled id := by
  rintro ⟨payload, hmember⟩
  rw [representative_of_none (h.not_left hnode hstate),
    member?_eq_none_of_node? hnode (by simp [hstate])] at hmember
  exact absurd hmember (by simp)

/-- A detached node of the graph that is settled was left. -/
theorem Tracing.left_of_settled (h : Tracing g root tasks a) (hsettled : a.Settled id)
    (hnode : g.node? id = some node) (hstate : node.state = .detached) :
    ∃ rep, a.resolved.get? id = some rep := by
  cases hrep : a.resolved.get? id with
  | some rep => exact ⟨rep, rfl⟩
  | none =>
    obtain ⟨node', hnode', hstate', -⟩ := h.spared hnode hrep
    exact absurd hsettled (h.not_settled hnode' (hstate'.trans hstate))

namespace Redirecting

theorem skip (h : Redirecting g root (.enter id :: rest) a) (henter : a.enter id = .ok none) :
    Redirecting g root rest a :=
  ⟨h.tracing.skip henter, h.settled, h.redirected⟩

theorem enter (h : Redirecting g root (.enter id :: rest) a)
    (henter : a.enter id = .ok (some payload)) :
    Redirecting g root (payload.edges.map .enter ++ .leave id :: rest)
      { a with entered := id :: a.entered } :=
  ⟨h.tracing.enter henter, h.settled, h.redirected⟩

/-- **What a node has edges to is settled when the node is left**, and who stands for it stays the
same. -/
theorem leave (h : Redirecting g root (.leave id :: rest) a)
    (hleave : a.leave id = ⟨.ok (), a', reports⟩) :
    Redirecting g root rest a' := by
  have hwalking := h.tracing.walking
  obtain ⟨⟨node, hnode, hstate, hslots⟩, -⟩ := hwalking.planned
  obtain ⟨node₀, hnode₀, -, hpayload₀⟩ := h.tracing.before (h.tracing.not_left hnode hstate) hnode
  have hrebased : Walking a.graph (.leave id :: rest) a :=
    ⟨hwalking.kept, .refl _, hwalking.resolved, hwalking.entered, hwalking.nodup, hwalking.planned⟩
  obtain ⟨a'', reports', hleave', hnext, -, hstays⟩ := hrebased.leave
  obtain ⟨-, rfl, -⟩ := Outcome.mk.inj (hleave.symm.trans hleave')
  have htargets : ∀ target ∈ node.payload.edges, a.Settled target := by
    intro target hin
    obtain ⟨slot, hslot, htarget⟩ := Payload.mem_edges_iff.mp hin
    have hchecked := hslots slot hslot
    unfold Checked at hchecked
    rw [htarget] at hchecked
    exact hchecked.2.resolve_right List.not_mem_nil
  obtain ⟨rep, hresolved, -⟩ := resolved_of_leave hleave
  have hothers : ∀ {other}, other ≠ id → a'.resolved.get? other = a.resolved.get? other := by
    intro other hne
    rw [hresolved, Table.get?_insert_of_ne _ _ hne]
  -- The node itself is not settled before, so it is no target of what was left.
  have hsame : ∀ {payload : Payload}, (∀ target ∈ payload.edges, a.Settled target) →
      payload.mapEdges a'.representative = payload.mapEdges a.representative := by
    intro payload hsettled
    refine Payload.mapEdges_congr fun target hin => ?_
    rw [representative_of_insert hresolved, if_neg]
    rintro rfl
    exact h.tracing.not_settled hnode hstate (hsettled target hin)
  refine ⟨h.tracing.leave hleave, ?_, ?_⟩
  · intro other rep' node' hrep' hnode' target hin
    by_cases hother : other = id
    · subst hother
      obtain rfl := Option.some.inj (hnode₀.symm.trans hnode')
      exact hstays target (htargets target (hpayload₀ ▸ hin))
    · exact hstays target (h.settled ((hothers hother).symm.trans hrep') hnode' target hin)
  · intro other node' hself hnode'
    by_cases hother : other = id
    · subst hother
      obtain rfl := Option.some.inj (hnode₀.symm.trans hnode')
      rw [hpayload₀, hsame htargets]
      obtain ⟨left, hleft, hcases⟩ := leave_cases hleave
      obtain rfl := Option.some.inj (hnode.symm.trans hleft)
      rcases hcases with ⟨member, htwin, rfl⟩ | ⟨-, rfl⟩
      · rw [discard, Table.get?_insert_self] at hself
        obtain rfl := Option.some.inj hself
        obtain ⟨hmember, -⟩ := (twin?_eq_some_iff hwalking.kept).mp htwin
        rw [member?_eq_none_of_node? hnode (by simp [hstate])] at hmember
        exact absurd hmember (by simp)
      · rw [member?_enroll hnode, if_pos rfl]
    · have hbefore := (hothers hother).symm.trans hself
      rw [hsame (h.settled hbefore hnode')]
      exact hnext.grown.member? (h.redirected hbefore hnode')

/-- The edges are followed to the end of the walk. -/
theorem walk (h : Redirecting g root tasks a) (bound : Nat) :
    ∃ rest, Redirecting g root rest (walk bound tasks a).state ∧
      ((Attachment.walk bound tasks a).result = .ok () → rest = []) := by
  exact walk_induct (P := Redirecting g root) skip enter leave
    (fun h hfail => absurd hfail h.tracing.walking.leave_ne_error) bound tasks a h

end Redirecting

/-! ## 3. The walk without a bound -/

/-- **What the walk comes to without a bound**, if it comes to an end at all. -/
inductive ComesTo : List (Task NodeId) → Attachment → Outcome Fault Attachment Unit → Prop where
  | done {a : Attachment} : ComesTo [] a ⟨.ok (), a, []⟩
  | left {id : NodeId} {rest : List (Task NodeId)} {a a' : Attachment} {reports : List Report}
    {outcome : Outcome Fault Attachment Unit} (h : a.leave id = ⟨.ok (), a', reports⟩)
    (hrest : ComesTo rest a' outcome) : ComesTo (.leave id :: rest) a (outcome.after reports)
  | stuck {id : NodeId} {rest : List (Task NodeId)} {a a' : Attachment} {reports : List Report}
    {fault : Fault}
    (h : a.leave id = ⟨.error fault, a', reports⟩) :
      ComesTo (.leave id :: rest) a ⟨.error fault, a', reports⟩
  | refused {id : NodeId} {rest : List (Task NodeId)} {a : Attachment} {fault : Fault}
    (h : a.enter id = .error fault) : ComesTo (.enter id :: rest) a ⟨.error fault, a, []⟩
  | passed {id : NodeId} {rest : List (Task NodeId)} {a : Attachment}
    {outcome : Outcome Fault Attachment Unit} (h : a.enter id = .ok none)
      (hrest : ComesTo rest a outcome) :
    ComesTo (.enter id :: rest) a outcome
  | entered {id : NodeId} {rest : List (Task NodeId)} {a : Attachment} {payload : Payload}
    {outcome : Outcome Fault Attachment Unit} (h : a.enter id = .ok (some payload))
    (hrest : ComesTo (payload.edges.map .enter ++ .leave id :: rest)
      { a with entered := id :: a.entered }
      outcome) : ComesTo (.enter id :: rest) a outcome

/-- Entering a node leaves one less to be entered. -/
theorem Walking.card_remaining (h : Walking g (.enter id :: rest) a)
    (henter : a.enter id = .ok (some payload)) :
    (remaining g { a with entered := id :: a.entered }).card + 1 = (remaining g a).card := by
  rcases enter_eq_ok henter with ⟨hbad, -⟩ | ⟨node, -, hnone, hnode, -, hfresh, -⟩
  · exact absurd hbad (by simp)
  · exact card_remaining_enter (h.grown.size ▸ lt_size_of_node? hnode) hnone hfresh

/-- **The walk comes to its end before the bound is met**, since every node is entered at most
once. -/
theorem comesTo_walk (h : Walking g tasks a) (hbound : (remaining g a).card ≤ bound) :
    ComesTo tasks a (walk bound tasks a) := by
  fun_induction walk bound tasks a with
  | case1 bound a => exact .done
  | case2 bound a id rest fault a' reports hstep => exact .stuck hstep
  | case3 bound a id rest a' reports hstep ih =>
    obtain ⟨a'', reports', hleave, hnext, -⟩ := h.leave
    obtain ⟨-, rfl, -⟩ := Outcome.mk.inj (hstep.symm.trans hleave)
    obtain ⟨rep, hresolved, hentered⟩ := resolved_of_leave hstep
    exact .left hstep (ih hnext ((card_remaining_leave hresolved hentered).trans hbound))
  | case4 bound a id rest fault hstep => exact .refused hstep
  | case5 bound a id rest hstep ih => exact .passed hstep (ih (h.skip hstep).1 hbound)
  | case6 a id rest payload hstep =>
    have hcard := h.card_remaining hstep
    omega
  | case7 a id rest payload hstep bound ih =>
    have hcard := h.card_remaining hstep
    exact .entered hstep (ih (h.enter hstep) (by omega))

end Attachment

/-- **Attaching is the walk without a bound.** -/
theorem attach_comesTo (h : g.Kept) (id : NodeId) :
    ∃ outcome, Attachment.ComesTo [.enter id] ⟨g, [], Table.empty⟩ outcome ∧
      attach id g = ⟨outcome.result.map fun _ => outcome.state.representative id,
        outcome.state.graph, outcome.reports⟩ := by
  refine ⟨_, Attachment.comesTo_walk (walking_start h id) (card_remaining_start g), ?_⟩
  rw [attach_eq, attachResolving]
  cases Attachment.walk g.nodes.size [.enter id] ⟨g, [], Table.empty⟩ with
  | mk result a reports => cases result <;> rfl

/-! ## 4. Resolved closures -/

/-- **How a closure is resolved in the graph that comes of attaching it**: `rep` says who stands
for each of its nodes. -/
structure Resolves (g : Graph) (root : NodeId) (g' : Graph) (rep : NodeId → NodeId) : Prop where
  /-- A node outside the closure, such as a member, stands for itself. -/
  outside : ∀ {id}, ¬ g.InClosure root id → rep id = id
  /-- A node that is not unique stands for itself. -/
  plain : ∀ {id node}, g.InClosure root id → g.node? id = some node →
    node.kind.isUnique = false → rep id = id
  /-- The only member of its payload stands for a unique node; a node that does not stand for
  itself was deleted. -/
  unique : ∀ {id node}, g.InClosure root id → g.node? id = some node → node.kind.isUnique = true →
    (∀ other, g'.member? other = some node.payload ↔ other = rep id) ∧
      (rep id ≠ id → ∃ node', g'.node? id = some node' ∧ node'.state = .deleted)
  /-- A node that stands for itself became a member, and its edges lead to who stands for their
  targets. -/
  redirected : ∀ {id node}, g.InClosure root id → g.node? id = some node → rep id = id →
    g'.member? id = some (node.payload.mapEdges rep)
  /-- Nobody else became a member. -/
  newcomers : ∀ {id payload}, g'.member? id = some payload →
    g.member? id = some payload ∨ g.InClosure root id

namespace Attachment

variable {a : Attachment}

/-- When a walk is over every node of the closure was left. -/
theorem Redirecting.left_of_inClosure (h : Redirecting g root [] a) (hroot : a.Settled root)
    (hid : g.InClosure root id) : ∃ rep, a.resolved.get? id = some rep := by
  obtain ⟨hasks, node, hnode, hstate⟩ := hid
  refine h.tracing.left_of_settled ?_ hnode hstate
  clear hnode hstate
  induction hasks with
  | refl => exact hroot
  | tail _ hpulls ih =>
    obtain ⟨user, huser, hdetached, hin⟩ := hpulls
    obtain ⟨rep, hrep⟩ := h.tracing.left_of_settled ih huser hdetached
    exact h.settled hrep huser _ hin

/-- **When a walk is over the closure is resolved.** -/
theorem Redirecting.resolves (h : Redirecting g root [] a) (hroot : a.Settled root) :
    Resolves g root a.graph a.representative where
  outside := by
    intro id hout
    refine representative_of_none (Option.eq_none_iff_forall_ne_some.mpr fun rep hrep => hout ?_)
    obtain ⟨node, -, hnode, hstate, -⟩ := (h.tracing.left hrep).ended
    exact ⟨(h.tracing.left hrep).asked, node, hnode, hstate⟩
  plain := by
    intro id node hid hnode hplain
    obtain ⟨rep, hrep⟩ := h.left_of_inClosure hroot hid
    obtain ⟨node₀, node', hnode₀, -, -, -, hended⟩ := (h.tracing.left hrep).ended
    obtain rfl := Option.some.inj (hnode.symm.trans hnode₀)
    rw [representative_of_resolved hrep]
    rcases hended with ⟨hself, -⟩ | ⟨hunique, -⟩
    · exact hself
    · rw [hplain] at hunique
      exact absurd hunique (by simp)
  unique := by
    intro id node hid hnode hunique
    obtain ⟨rep, hrep⟩ := h.left_of_inClosure hroot hid
    obtain ⟨node₀, node', hnode₀, -, hnode', hfixed, hended⟩ := (h.tracing.left hrep).ended
    obtain rfl := Option.some.inj (hnode.symm.trans hnode₀)
    rw [representative_of_resolved hrep]
    have hmember : a.graph.member? rep = some node.payload := by
      rcases hended with ⟨rfl, hactive⟩ | ⟨-, hmember, -⟩
      · exact member?_eq_some_iff.mpr ⟨node', hnode', hactive, hfixed hunique⟩
      · exact hmember
    refine ⟨fun other => ⟨fun hother => ?_, fun hother => hother ▸ hmember⟩, fun hne => ?_⟩
    · exact h.tracing.walking.kept.unique_member hother hmember hunique
    · exact ⟨node', hnode', (hended.resolve_left fun hself => hne hself.1).2.2⟩
  redirected := by
    intro id node hid hnode hself
    obtain ⟨rep, hrep⟩ := h.left_of_inClosure hroot hid
    rw [representative_of_resolved hrep] at hself
    exact h.redirected (hself ▸ hrep) hnode
  newcomers := by
    intro id payload hmember
    obtain ⟨node', hnode', hactive, rfl⟩ := member?_eq_some_iff.mp hmember
    cases hrep : a.resolved.get? id with
    | none =>
      obtain ⟨node, hnode, hstate, hpayload⟩ := h.tracing.before hrep hnode'
      exact .inl (member?_eq_some_iff.mpr ⟨node, hnode, hstate.trans hactive, hpayload⟩)
    | some rep =>
      obtain ⟨node, -, hnode, hstate, -⟩ := (h.tracing.left hrep).ended
      exact .inr ⟨(h.tracing.left hrep).asked, node, hnode, hstate⟩

end Attachment

/-- **What is attached is resolved** as the answer says. -/
theorem attachResolving_resolves (h : g.Kept) {resolved : Table NodeId NodeId}
    (hok : (attachResolving id g).result = .ok resolved) :
    Resolves g id (attachResolving id g).state fun other => (resolved.get? other).getD other := by
  obtain ⟨rest, hredirecting, hdone⟩ := (Attachment.redirecting_start h id).walk g.nodes.size
  obtain ⟨rest', -, hdue, hdone'⟩ := (walking_start h id).walk
    (show Attachment.Due _ _ id from Or.inr (by simp [Attachment.subject])) g.nodes.size
  rw [attachResolving] at hok ⊢
  cases hwalk : Attachment.walk g.nodes.size [.enter id] ⟨g, [], Table.empty⟩ with
  | mk result a reports =>
    rw [hwalk] at hok hredirecting hdone hdue hdone'
    cases result with
    | error fault => exact absurd hok (by simp)
    | ok value =>
      obtain rfl := hdone rfl
      rw [hdone' rfl] at hdue
      obtain rfl := Except.ok.inj hok
      exact hredirecting.resolves (hdue.resolve_right (by simp))

/-- The answer of attaching a node is who stands for it. -/
theorem attach_resolves (h : g.Kept) {answer : NodeId} (hok : (attach id g).result = .ok answer) :
    ∃ rep, Resolves g id (attach id g).state rep ∧ answer = rep id := by
  rw [attach_eq] at hok ⊢
  cases hresult : (attachResolving id g).result with
  | error fault =>
    rw [hresult] at hok
    exact absurd hok (by simp [Except.map])
  | ok resolved =>
    rw [hresult] at hok
    exact ⟨_, attachResolving_resolves h hresult, (Except.ok.inj hok).symm⟩

/-! ## 5. Every closure of a reachable graph -/

/-- **Attaching a node succeeds exactly if its closure is well formed.**  Then the closure is
resolved, and the answer is who stands for the node.  Whatever the closure is like, the walk comes
to an end. -/
theorem Reachable.attaching_resolves (h : g.Reachable) (id : NodeId) :
    ((∃ answer, (attach id g).result = .ok answer) ↔ g.WellFormed id) ∧
    (∀ answer, (attach id g).result = .ok answer →
      ∃ rep, Resolves g id (attach id g).state rep ∧ answer = rep id) ∧
    ∃ outcome, Attachment.ComesTo [.enter id] ⟨g, [], Table.empty⟩ outcome ∧
      attach id g = ⟨outcome.result.map fun _ => outcome.state.representative id,
        outcome.state.graph, outcome.reports⟩ :=
  ⟨(attach_eq_ok_iff h.kept).trans attachable_iff_wellFormed, fun _ => attach_resolves h.kept,
    attach_comesTo h.kept id⟩

/-- A member, and a detached sum of products that share their factors, two of which are equal to
each other and one to the member; and two casts that read each other. -/
def sharing : Graph :=
  ([.add (.const (.ofInt 1 (.uint 8))), .create (.const (.ofInt 1 (.uint 8))),
    .create (.const (.ofInt 2 (.uint 8))), .create (.const (.ofInt 2 (.uint 8))),
    .create (.builtInCall [⟨1⟩, ⟨2⟩] .mul (.uint 8)),
      .create (.builtInCall [⟨4⟩, ⟨3⟩] .mul (.uint 8)),
    .create (.builtInCall [⟨4⟩, ⟨5⟩] .add (.uint 8)), .create (.typeCast ⟨8⟩ (.uint 8)),
    .create (.typeCast ⟨7⟩ (.uint 8))] : List Move).foldl (fun g move => move.after g) (empty "f")

/-- The sum is attached although its closure is no tree, the casts are not, and neither walk goes
on for ever. -/
theorem attaching_resolves_sharing :
    sharing.WellFormed ⟨6⟩ ∧ ¬ sharing.WellFormed ⟨7⟩ ∧
    (∃ rep, Resolves sharing ⟨6⟩ (attach ⟨6⟩ sharing).state rep ∧ rep ⟨6⟩ = ⟨6⟩) ∧
    (attach ⟨6⟩ sharing).state.member? ⟨5⟩ = some (.builtInCall [⟨4⟩, ⟨2⟩] .mul (.uint 8)) ∧
    ∃ outcome, Attachment.ComesTo [.enter ⟨7⟩] ⟨sharing, [], Table.empty⟩ outcome ∧
      outcome.result = .error (.cycle ⟨7⟩) := by
  have hreachable : sharing.Reachable := reachable_foldl "f" _
  have hok : (attach ⟨6⟩ sharing).result = .ok ⟨6⟩ := by cbv
  have hfault : (attach ⟨7⟩ sharing).result = .error (.cycle ⟨7⟩) := by cbv
  obtain ⟨hwellFormed, hresolves, -⟩ := hreachable.attaching_resolves ⟨6⟩
  obtain ⟨hnot, -, outcome, hends, hattach⟩ := hreachable.attaching_resolves ⟨7⟩
  refine ⟨hwellFormed.mp ⟨_, hok⟩, fun h => ?_, ?_, by cbv, outcome, hends, ?_⟩
  · obtain ⟨answer, hanswer⟩ := hnot.mpr h
    rw [hfault] at hanswer
    exact absurd hanswer (by simp)
  · obtain ⟨rep, hrep, hself⟩ := hresolves _ hok
    exact ⟨rep, hrep, hself.symm⟩
  · rw [hattach] at hfault
    cases hresult : outcome.result with
    | ok value => simp [hresult, Except.map] at hfault
    | error fault => simpa [hresult, Except.map] using hfault

end Graph

end BehaviorGraph
