/-
# Removing exactly the dead values

A node is needed if a control node or a side effect reads it, at whatever distance
(`Graph.Needed`).  Removing knows nothing of that: it deletes a value when nobody uses it, and then
looks at what the value read.

Deleting leaves every payload as it is and takes only values away (`Graph.Pruned`), so what is
needed stays.  When the stack is empty every value that is left is used, and following users up an
acyclic graph one arrives at a control node or a side effect (`Used.needed`).  So **the values that
are left are those that are needed**.

Cycles of values keep each other in use, and are left.  The walk comes to an end all the same
(`DeadValues.comesTo_run`).
-/
import BehaviorGraph.Proofs.Worklists

namespace BehaviorGraph

/-- What is no value is a control node or a side effect. -/
theorem Kind.isA_control_or_sideEffect {kind : Kind} (h : kind.isA .value = false) :
    kind.isA .control = true ∨ kind.isA .sideEffect = true := by
  revert h
  cases kind <;> decide

namespace Graph

variable {start g : Graph} {id user target : NodeId} {payload found : Payload} {node : Node}
  {rank : NodeId → Nat}

/-! ## 1. Needed nodes -/

/-- **A control node or a side effect reads the node**, at whatever distance. -/
def Needed (g : Graph) (id : NodeId) : Prop :=
  ∃ root payload, g.member? root = some payload ∧
    (payload.kind.isA .control = true ∨ payload.kind.isA .sideEffect = true) ∧
    Relation.ReflTransGen g.ReadsFrom root id

/-- An edge to a value is an input: control goes to no value. -/
theorem Kept.mem_inputEdges_of_mem_edges (h : g.Kept) (huser : g.member? user = some found)
    (hedge : id ∈ found.edges) (hmember : g.member? id = some payload)
    (hvalue : payload.kind.isA .value = true) : id ∈ found.inputEdges := by
  obtain ⟨slot, hslot, htarget⟩ := Payload.mem_edges_iff.mp hedge
  have hfilled := h.filled huser slot hslot
  rcases List.mem_append.mp hslot with hin | hsuccessor
  · exact Payload.mem_inputEdges_iff.mpr ⟨slot, hin, htarget⟩
  · have hoffers := (fills_some htarget).mp hfilled
    rw [Payload.family_of_mem_successorSlots hsuccessor] at hoffers
    exact absurd rfl (ne_of_offers_control hmember hvalue hoffers)

/-- Where every value is used somebody reads it. -/
theorem Used.exists_reader (hused : g.Used) (h : g.Kept) (hmember : g.member? id = some payload)
    (hvalue : payload.kind.isA .value = true) : ∃ user, g.ReadsFrom user id := by
  obtain ⟨node, hnode, -⟩ := member?_eq_some_iff.mp hmember
  obtain ⟨user, huser⟩ := List.exists_mem_of_ne_nil _ (hused hmember hvalue)
  have huser' : user ∈ g.users id := List.mem_eraseDups.mpr huser
  obtain ⟨found, hfound⟩ := h.member?_of_mem_users hnode huser'
  have hedge := (mem_users_iff h hnode hfound).mp huser'
  exact ⟨user, found, hfound, h.mem_inputEdges_of_mem_edges hfound hedge hmember hvalue⟩

/-- **Where every value is used every member is needed**, if reading is acyclic. -/
theorem Used.needed (hused : g.Used) (h : g.Kept) (hranked : g.Ranked rank)
    (hmember : g.member? id = some payload) : g.Needed id := by
  -- The induction goes up: whoever reads a member has a higher rank, and ranks are bounded.
  induction hdistance : g.nodes.size - rank id using Nat.strong_induction_on
    generalizing id payload with
  | _ distance ih =>
    cases hvalue : payload.kind.isA .value with
    | false => exact ⟨id, payload, hmember, Kind.isA_control_or_sideEffect hvalue, .refl⟩
    | true =>
      obtain ⟨user, found, hfound, hreads⟩ := hused.exists_reader h hmember hvalue
      have hlt := hranked.falls hfound id hreads
      have hsize := hranked.bounded hfound
      obtain ⟨root, payload', hroot, hkind, hpath⟩ :=
        ih (g.nodes.size - rank user) (by omega) hfound rfl
      exact ⟨root, payload', hroot, hkind, hpath.tail ⟨found, hfound, hreads⟩⟩

/-! ## 2. What removing keeps -/

/-- **Values of `start` were deleted in `g`**, and nothing else happened to any node but that users
were written off. -/
structure Pruned (start g : Graph) : Prop where
  kept : g.Kept
  size : g.nodes.size = start.nodes.size
  nodes : ∀ {id node}, start.node? id = some node → ∃ left, g.node? id = some left ∧
    left.payload = node.payload ∧ (left.state = node.state ∨
      node.state = .active ∧ node.payload.kind.isA .value = true ∧ left.state = .deleted)

/-- Deleting a node leaves all payloads as they are, and the states of the other nodes. -/
theorem exists_node?_withdraw (id : NodeId) (payload : Payload) {other : NodeId}
    (hnode : g.node? other = some node) : ∃ left,
    (g.withdraw id payload).node? other = some left ∧ left.payload = node.payload ∧
      left.state = if other = id then .deleted else node.state := by
  rw [node?_withdraw, hnode]
  refine ⟨_, rfl, ?_⟩
  by_cases heq : other = id <;> simp [heq]

namespace Pruned

theorem refl (h : g.Kept) : Pruned g g := ⟨h, rfl, fun hnode => ⟨_, hnode, rfl, .inl rfl⟩⟩

/-- Who is left was there before, with the payload it has. -/
theorem before (h : Pruned start g) (hmember : g.member? id = some payload) :
    start.member? id = some payload := by
  obtain ⟨left, hleft, hstate, hpayload⟩ := member?_eq_some_iff.mp hmember
  obtain ⟨node, hnode⟩ := exists_node?_of_lt (h.size ▸ lt_size_of_node? hleft)
  obtain ⟨left', hleft', hsame, hcases⟩ := h.nodes hnode
  obtain rfl := Option.some.inj (hleft.symm.trans hleft')
  refine member?_eq_some_iff.mpr ⟨node, hnode, ?_, hsame.symm.trans hpayload⟩
  rcases hcases with hsame' | ⟨hactive, -, -⟩
  · exact hsame'.symm.trans hstate
  · exact hactive

/-- Who is no value is left. -/
theorem stays (h : Pruned start g) (hmember : start.member? id = some payload)
    (hvalue : payload.kind.isA .value = false) : g.member? id = some payload := by
  obtain ⟨node, hnode, hstate, rfl⟩ := member?_eq_some_iff.mp hmember
  obtain ⟨left, hleft, hsame, hcases⟩ := h.nodes hnode
  rcases hcases with hsame' | ⟨-, hvalue', -⟩
  · exact member?_eq_some_iff.mpr ⟨left, hleft, hsame'.trans hstate, hsame⟩
  · rw [hvalue] at hvalue'
    exact Bool.noConfusion hvalue'

/-- One more value is deleted. -/
theorem withdraw (h : Pruned start g) (hnode : g.node? id = some node)
    (hstate : node.state = .active)
    (hnil : node.usages = []) (hvalue : node.payload.kind.isA .value = true) :
    Pruned start (g.withdraw id node.payload) := by
  refine ⟨kept_withdraw h.kept hnode hstate hnil,
    (g.size_withdraw id node.payload).trans h.size, ?_⟩
  intro other before hbefore
  obtain ⟨left, hleft, hsame, hcases⟩ := h.nodes hbefore
  obtain ⟨left', hleft', hsame', hstate'⟩ := exists_node?_withdraw id node.payload hleft
  refine ⟨left', hleft', hsame'.trans hsame, ?_⟩
  by_cases heq : other = id
  · subst heq
    obtain rfl := Option.some.inj (hnode.symm.trans hleft)
    refine Or.inr ⟨?_, hsame ▸ hvalue, hstate'.trans (if_pos rfl)⟩
    rcases hcases with hsame'' | ⟨hactive, -, -⟩
    · exact hsame''.symm.trans hstate
    · exact hactive
  · rwa [hstate', if_neg heq]

theorem ranked (h : Pruned start g) (hranked : start.Ranked rank) : g.Ranked rank :=
  ⟨fun hmember => h.size ▸ hranked.bounded (h.before hmember),
    fun hmember => hranked.falls (h.before hmember)⟩

/-- What is needed afterwards was needed before. -/
theorem needed (h : Pruned start g) (hneeded : g.Needed id) : start.Needed id := by
  obtain ⟨root, payload, hroot, hkind, hpath⟩ := hneeded
  refine ⟨root, payload, h.before hroot, hkind, Relation.ReflTransGen.mono ?_ _ _ hpath⟩
  rintro user target ⟨found, hfound, hreads⟩
  exact ⟨found, h.before hfound, hreads⟩

/-- **What was needed is left**: each member on the way is, since somebody who is left reads it. -/
theorem isActive_of_needed (h : Pruned start g) (hneeded : start.Needed id) :
    g.isActive id = true := by
  obtain ⟨root, payload, hroot, hkind, hpath⟩ := hneeded
  have hvalue : payload.kind.isA .value = false := by
    revert hkind
    cases payload.kind <;> decide
  induction hpath with
  | refl => exact isActive_iff.mpr ⟨payload, h.stays hroot hvalue⟩
  | tail _ hreads ih =>
    obtain ⟨found, hfound, hin⟩ := hreads
    obtain ⟨left, hleft⟩ := isActive_iff.mp ih
    obtain rfl := Option.some.inj (hfound.symm.trans (h.before hleft))
    exact isActive_iff.mpr (h.kept.member?_of_mem_inputEdges hleft hin)

/-- The members that are left and those that are gone are all there were. -/
theorem length_members (h : Pruned start g) :
    g.size + (start.members.filter fun id => !g.isActive id).length = start.size := by
  have hleft : (start.members.filter g.isActive).Perm g.members := by
    refine (List.perm_ext_iff_of_nodup ((nodup_members start).filter _) (nodup_members g)).mpr
      fun id => ?_
    rw [List.mem_filter, mem_members_iff, mem_members_iff, ← isActive_iff (g := g)]
    refine ⟨And.right, fun hactive => ⟨?_, hactive⟩⟩
    obtain ⟨payload, hmember⟩ := isActive_iff.mp hactive
    exact ⟨payload, h.before hmember⟩
  show g.members.length + _ = start.members.length
  rw [← hleft.length_eq]
  exact (List.length_eq_length_filter_add g.isActive).symm

end Pruned

end Graph

namespace DeadValues

variable {g : Graph}

/-- **A run deletes values until every value is used**, and counts them. -/
theorem run_prunes (hkept : g.Kept) :
    run.Ends g fun r g' => ∃ count, r = .ok count ∧ g'.size + count = g.size ∧
      g.Pruned g' ∧ g'.Used :=
  run_removes (P := fun g' => g.Pruned g')
    (fun h hnode hstate hnil hvalue => h.withdraw hnode hstate hnil hvalue) (.refl hkept)

end DeadValues

/-! ## 3. Reachable graphs -/

namespace Graph

variable {g : Graph}

/-- **Removing deletes exactly the dead values.**  It always comes to an end and succeeds, answers
how many members are gone, leaves control nodes, side effects and all payloads alone, and finds
nothing the second time.  Where reading is acyclic the values that are left are those that a
control node or a side effect needs. -/
theorem Reachable.removing_keeps_needed (h : g.Reachable) :
    DeadValues.ComesTo (g.members.filter (DeadValues.removable g)).reverse 0 g (DeadValues.run g) ∧
    ∃ removed g', (DeadValues.run g).result = .ok removed ∧ (DeadValues.run g).state = g' ∧
      (g.members.filter fun id => !g'.isActive id).length = removed ∧ g.Pruned g' ∧
      (∀ {id payload}, g.member? id = some payload →
        payload.kind.isA .control = true ∨ payload.kind.isA .sideEffect = true →
          g'.isActive id = true) ∧
      (∀ {id payload}, g'.member? id = some payload → g.member? id = some payload) ∧
      (g.Acyclic → ∀ {id payload}, g.member? id = some payload → payload.kind.isA .value = true →
        (g'.isActive id = true ↔ g.Needed id)) ∧
      (DeadValues.run g').result = .ok 0 ∧ (DeadValues.run g').state = g' := by
  refine ⟨DeadValues.comesTo_run g, ?_⟩
  obtain ⟨removed, hok, hcount, hpruned, hused⟩ := DeadValues.run_prunes h.kept
  obtain ⟨hagain, hrests⟩ := DeadValues.run_rests hused
  have hlength := hpruned.length_members
  refine ⟨removed, _, hok, rfl, by omega, hpruned, fun hmember hkind => ?_, hpruned.before,
    fun hacyclic id payload hmember hvalue => ⟨fun hactive => ?_, hpruned.isActive_of_needed⟩,
      hagain, hrests⟩
  · exact hpruned.isActive_of_needed ⟨_, _, hmember, hkind, .refl⟩
  · obtain ⟨rank, hranked⟩ := hacyclic.exists_ranked h.kept
    obtain ⟨left, hleft⟩ := isActive_iff.mp hactive
    exact hpruned.needed (hused.needed hpruned.kept (hpruned.ranked hranked) hleft)

/-- A sum is returned; a product that reads it twice is read by nothing but a negation that nobody
reads; and a register is written, though no end gathers the effect. -/
def withered : Graph :=
  ([.add (.param "x" (.uint 8)), .add (.const (.ofInt 1 (.uint 8))),
    .add (.builtInCall [⟨0⟩, ⟨1⟩] .add (.uint 8)), .add (.builtInCall [⟨2⟩, ⟨2⟩] .mul (.uint 8)),
    .add (.builtInCall [⟨3⟩] .not (.uint 8)), .add (.builtInCall [⟨0⟩] .not (.uint 8)),
    .add (.writeReg ⟨5⟩ none "A"), .add (.ret ⟨2⟩)] : List Move).foldl
      (fun g move => move.after g) (empty "f")

/-- The negation and the product go; the write stays, and what it reads. -/
theorem removing_keeps_needed_withered :
    (DeadValues.run withered).result = .ok 2 ∧
    (DeadValues.run withered).state.members = [⟨0⟩, ⟨1⟩, ⟨2⟩, ⟨5⟩, ⟨6⟩, ⟨7⟩] ∧
    ¬ withered.Needed ⟨3⟩ ∧ withered.Needed ⟨5⟩ ∧
    (DeadValues.run (DeadValues.run withered).state).result = .ok 0 := by
  have hreachable : withered.Reachable := reachable_foldl "f" _
  have hacyclic : withered.Acyclic := acyclic_of_creation (by cbv)
  have hproduct : withered.member? ⟨3⟩ = some (.builtInCall [⟨2⟩, ⟨2⟩] .mul (.uint 8)) := by cbv
  have hnegation : withered.member? ⟨5⟩ = some (.builtInCall [⟨0⟩] .not (.uint 8)) := by cbv
  have hmembers : (DeadValues.run withered).state.members = [⟨0⟩, ⟨1⟩, ⟨2⟩, ⟨5⟩, ⟨6⟩, ⟨7⟩] := by cbv
  obtain ⟨-, removed, g', hok, rfl, -, -, -, -, hneeded, hagain, -⟩ :=
    hreachable.removing_keeps_needed
  have hleft : ∀ id, (DeadValues.run withered).state.isActive id = true ↔
      id ∈ ([⟨0⟩, ⟨1⟩, ⟨2⟩, ⟨5⟩, ⟨6⟩, ⟨7⟩] : List NodeId) := fun id => by
    rw [← hmembers, mem_members_iff, isActive_iff]
  refine ⟨by cbv, hmembers, fun hproduct' => ?_, ?_, hagain⟩
  · exact absurd ((hleft _).mp ((hneeded hacyclic hproduct rfl).mpr hproduct')) (by decide)
  · exact (hneeded hacyclic hnegation rfl).mp ((hleft _).mpr (by decide))

end Graph

end BehaviorGraph
