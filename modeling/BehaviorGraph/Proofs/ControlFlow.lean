/-
# Verified control flow ends

Control passes along successor edges, and from the end of a branch to the nodes that list it among
the branches they merge (`ControlStep`).  The check of the control flow works on a directed graph
of its own, in which every merging node that uses the end of a branch in any way counts as a way
on.  Where that graph has no cycle the two agree (`Kept.edge_controlFlow_iff`): a merging node that
has the end of a branch as its successor would be both in front of it and behind it.

The rest is read off the single checks.  Without cycles the nodes can be listed so that control
only moves forward in the list, so no path goes on for ever (`Digraph.Forward.bounded`).  The
search from the start leaves nothing out, so everything control reaches was looked at, and what was
not complained about has a way on unless it is terminal (`exists_controlStep`).  And there is one
terminal node, of the kind the owner asks for.  Together: **wherever control goes from the start,
it arrives there** (`Reachable.control_arrives`).
-/
import BehaviorGraph.Proofs.Exchanging
import BehaviorGraph.Proofs.Histories
import BehaviorGraph.Proofs.Verified

namespace BehaviorGraph

/-! ## 1. Directed graphs without cycles -/

namespace Digraph

variable {α : Type} [DecidableEq α] {g : Digraph α} {start v : α}

/-- Where the test finds no cycle, the vertices can be listed in order. -/
theorem exists_forward (hclosed : g.Closed) (h : g.isCyclic = false) :
    ∃ order, g.Forward order ∧ order.Nodup ∧ ∀ v, v ∈ order ↔ v ∈ g.vertices := by
  rcases order?_cases hclosed with ⟨order, -, hforward, hnodup, hmem⟩ | ⟨v, herror, -⟩
  · exact ⟨order, hforward, hnodup, hmem⟩
  · rw [isCyclic, herror] at h
    exact absurd h (by simp)

/-- **A path goes on at most as long as the list of the vertices.** -/
theorem Forward.bounded {order : List α} (h : g.Forward order) (hnodup : order.Nodup)
    (hmem : ∀ {u v}, g.Edge u v → u ∈ order) (path : Nat → α) :
    ¬ ∀ n, g.Edge (path n) (path (n + 1)) := by
  intro hpath
  have hplace : ∀ n, n ≤ order.idxOf (path n) := by
    intro n
    induction n with
    | zero => exact Nat.zero_le _
    | succ n ih => exact Nat.lt_of_le_of_lt ih (h.idxOf_lt hnodup (hmem (hpath n)) (hpath n))
  have hlast := List.idxOf_lt_length_of_mem (hmem (hpath order.length))
  exact absurd (hplace order.length) (by omega)

/-- The search finds all that can be reached. -/
theorem mem_depthFirst_of_path (hpath : Relation.ReflTransGen g.Edge start v) :
    v ∈ g.depthFirst start := by
  rw [depthFirst, List.mem_reverse]
  refine mem_search_of_path (start :: g.edges.map Prod.snd) ?_ (by simp) ?_
    (Relation.ReflTransGen.mono ?_ _ _ hpath)
  · intro u w hw
    have hedge : (u, w) ∈ g.edges := mem_next_iff.mp (List.mem_reverse.mp hw)
    exact List.mem_cons_of_mem _ (List.mem_map.mpr ⟨_, hedge, rfl⟩)
  · rw [List.length_cons, List.length_map]
    omega
  · exact fun u w hedge => List.mem_reverse.mpr (mem_next_iff.mpr hedge)

end Digraph

namespace Payload

variable {payload : Payload}

theorem isControl_of_mem_successorSlots {slot : Slot} (h : slot ∈ payload.successorSlots) :
    payload.kind.isA .control = true := by
  cases payload <;> first | rfl | exact absurd h (by simp [successorSlots])

/-- A control node has a successor slot unless it closes a block. -/
theorem exists_successorSlot (hcontrol : payload.kind.isA .control = true)
    (hterminal : payload.kind.isA .terminal = false) (hend : payload.kind ≠ .branchEnd) :
    ∃ slot, slot ∈ payload.successorSlots := by
  cases payload <;>
    first
    | exact ⟨_, List.mem_cons_self⟩
    | exact absurd rfl hend
    | exact Bool.noConfusion hcontrol
    | exact Bool.noConfusion hterminal

end Payload

namespace Graph

variable {g : Graph} {id target start : NodeId} {payload : Payload}

/-! ## 2. Where control goes -/

/-- **Control passes from one node to the next.** -/
inductive ControlStep (g : Graph) (id target : NodeId) : Prop where
  /-- Along a successor edge. -/
  | successor {payload : Payload} {slot : Slot} (hmember : g.member? id = some payload)
    (hslot : slot ∈ payload.successorSlots) (htarget : slot.target = some target)
  /-- From the end of a branch to a node that lists it among those it merges. -/
  | merge {effects branchEnds : List NodeId} {next : Option NodeId}
    (hend : g.member? id = some (.branchEnd effects))
    (hmerge : g.member? target = some (.merge branchEnds next)) (hlisted : id ∈ branchEnds)

theorem mem_successors_iff (hmember : g.member? id = some payload) :
    some target ∈ g.successors id ↔ ∃ slot ∈ payload.successorSlots, slot.target = some target := by
  rw [successors, payload?_of_member? hmember]
  simp [Payload.successors]

theorem mem_controlTargets_iff (hmember : g.member? id = some payload) :
    target ∈ g.controlTargets id ↔
      (∃ slot ∈ payload.successorSlots, slot.target = some target) ∨
      (payload.kind = .branchEnd ∧ target ∈ g.users id ∧ g.kind? target = some .merge) := by
  rw [controlTargets, List.mem_append, ← mem_successors_iff hmember, kind?_of_member? hmember]
  refine or_congr (by simp) ?_
  by_cases hkind : payload.kind = .branchEnd
  · simp [hkind]
  · simp [hkind]

/-- Edges that are added vertex by vertex. -/
theorem edge_foldl {targets : NodeId → List NodeId} {ids : List NodeId} {flow : Digraph NodeId} :
    (ids.foldl (fun flow id => (targets id).foldl (fun flow target => flow.addEdge id target)
      (flow.addVertex id)) flow).Edge id target
      ↔ flow.Edge id target ∨ (id ∈ ids ∧ target ∈ targets id) := by
  induction ids generalizing flow with
  | nil => simp
  | cons first ids ih =>
    rw [List.foldl_cons, ih, Digraph.foldl_addEdge, Digraph.edge_addEdges, Digraph.Edge,
      Digraph.edges_addVertex, Digraph.Edge, List.mem_cons]
    grind

theorem edge_controlFlow :
    g.controlFlow.Edge id target
      ↔ id ∈ g.membersOf (.family .control) ∧ target ∈ g.controlTargets id := by
  rw [controlFlow, edge_foldl]
  simp [Digraph.Edge]

/-- Every step of control is an edge of the control flow. -/
theorem Kept.edge_of_controlStep (h : g.Kept) (hstep : g.ControlStep id target) :
    g.controlFlow.Edge id target := by
  rw [edge_controlFlow]
  cases hstep with
  | successor hmember hslot htarget =>
    exact ⟨mem_membersOf_iff.mpr ⟨_, hmember, Payload.isControl_of_mem_successorSlots hslot⟩,
      (mem_controlTargets_iff hmember).mpr (Or.inl ⟨_, hslot, htarget⟩)⟩
  | merge hend hmerge hlisted =>
    obtain ⟨node, hnode, -, -⟩ := member?_eq_some_iff.mp hend
    have huser : target ∈ g.users id := by
      rw [mem_users_iff h hnode hmerge]
      refine Payload.mem_edges_of_mem_inputEdges (Payload.mem_inputEdges_iff.mpr ?_)
      exact ⟨.required "branch_ends" .blockEnd id, List.mem_map.mpr ⟨id, hlisted, rfl⟩, rfl⟩
    exact ⟨mem_membersOf_iff.mpr ⟨_, hend, rfl⟩,
      (mem_controlTargets_iff hend).mpr (Or.inr ⟨rfl, huser, kind?_of_member? hmerge⟩)⟩

/-- **The edges of the control flow are the steps of control**, if there are no cycles. -/
theorem Kept.edge_controlFlow_iff (h : g.Kept) (hacyclic : g.controlFlow.Acyclic) :
    g.controlFlow.Edge id target ↔ g.ControlStep id target := by
  refine ⟨fun hedge => ?_, h.edge_of_controlStep⟩
  obtain ⟨hcontrol, htarget⟩ := edge_controlFlow.mp hedge
  obtain ⟨payload, hmember, -⟩ := mem_membersOf_iff.mp hcontrol
  rcases (mem_controlTargets_iff hmember).mp htarget with ⟨slot, hslot, hset⟩
    | ⟨hkind, huser, hmerge⟩
  · exact .successor hmember hslot hset
  · obtain ⟨node, hnode, -, -⟩ := member?_eq_some_iff.mp hmember
    obtain ⟨found, hfound⟩ := h.member?_of_mem_users hnode huser
    have huses := (mem_users_iff h hnode hfound).mp huser
    obtain ⟨branchEnds, next, rfl⟩ : ∃ branchEnds next, found = .merge branchEnds next := by
      rw [kind?_of_member? hfound] at hmerge
      cases found <;> first | exact ⟨_, _, rfl⟩ | exact absurd hmerge (by simp [Payload.kind])
    obtain ⟨effects, rfl⟩ : ∃ effects, payload = .branchEnd effects := by
      cases payload <;> first | exact ⟨_, rfl⟩ | exact absurd hkind (by simp [Payload.kind])
    obtain ⟨slot, hslot, hset⟩ := Payload.mem_edges_iff.mp huses
    rcases List.mem_append.mp hslot with hinput | hsuccessor
    · obtain ⟨listed, hlisted, rfl⟩ := List.mem_map.mp hinput
      obtain rfl := Option.some.inj hset
      exact .merge hmember hfound hlisted
    · -- The merging node leads to the end of the branch, which leads back to it.
      have hback := h.edge_of_controlStep (.successor hfound hsuccessor hset)
      exact absurd (Relation.TransGen.tail (.single hedge) hback) (hacyclic id)

/-! ## 3. What the checks say -/

/-- **One terminal node, of the kind the owner asks for.** -/
theorem ends_of_checkTerminal {owner : Owner} (howner : g.owner = some owner)
    (h : g.checkTerminal.errors = []) :
    ∃ terminal, g.ends = [terminal] ∧ g.kind? terminal = some owner.role.terminal := by
  unfold checkTerminal at h
  rw [howner] at h
  simp only [Diagnostics.ofErrors, List.append_eq_nil_iff, List.map_eq_nil_iff,
    List.filter_eq_nil_iff] at h
  obtain ⟨hfits, hcount⟩ := h
  have hall : g.ends.filter (fun id => decide (g.kind? id = some owner.role.terminal)) = g.ends :=
    List.filter_eq_self.mpr fun id hid => by simpa using hfits id hid
  rw [hall] at hcount
  have hone : g.ends.length = 1 := by
    split at hcount
    · exact absurd hcount (by simp)
    · assumption
    · exact absurd hcount (by simp)
  obtain ⟨terminal, hends⟩ := List.length_eq_one_iff.mp hone
  exact ⟨terminal, hends, by simpa using hfits terminal (by simp [hends])⟩

/-- **No cycles, and no complaint about anything the start leads to.** -/
theorem exits_of_checkControlFlow (hstart : g.membersOf (.exactly .start) = [start])
    (h : g.checkControlFlow.errors = []) :
    g.controlFlow.isCyclic = false ∧
      ∀ id ∈ g.controlFlow.depthFirst start, g.exitComplaints g.controlFlow id = [] := by
  unfold checkControlFlow at h
  rw [hstart] at h
  simp only [List.map_eq_nil_iff, List.append_eq_nil_iff, List.flatMap_eq_nil_iff] at h
  obtain ⟨⟨-, hcycles⟩, hexits⟩ := h
  refine ⟨?_, hexits⟩
  cases hcyclic : g.controlFlow.isCyclic with
  | false => rfl
  | true => simp [hcyclic] at hcycles

/-- What is not complained about is terminal, is merged once, or has every successor slot set. -/
theorem exit_of_no_complaint {flow : Digraph NodeId} (hmember : g.member? id = some payload)
    (h : g.exitComplaints flow id = []) :
    payload.kind.isA .terminal = true ∨
    (payload.kind = .branchEnd ∧ (flow.next id).length = 1) ∨
    (payload.kind ≠ .branchEnd ∧ ∀ slot ∈ payload.successorSlots, slot.target ≠ none) := by
  unfold exitComplaints at h
  rw [payload?_of_member? hmember] at h
  simp only at h
  split at h
  · exact Or.inl ‹_›
  · split at h
    · split at h
      · exact Or.inr (Or.inl ⟨‹_›, ‹_›⟩)
      · exact absurd h (by simp)
    · refine Or.inr (Or.inr ⟨‹_›, fun slot hslot => ?_⟩)
      rw [List.map_eq_nil_iff, List.filter_eq_nil_iff] at h
      simpa using h slot hslot

/-! ## 4. Following control -/

/-- **What control reaches is a control node.** -/
theorem Kept.control_of_path (h : g.Kept) (hstart : g.Offers start .control)
    (hpath : Relation.ReflTransGen g.ControlStep start id) : g.Offers id .control := by
  induction hpath with
  | refl => exact hstart
  | tail _ hstep ih =>
    cases hstep with
    | successor hmember hslot htarget =>
      have hfills := h.filled hmember _ (List.mem_append_right _ hslot)
      rw [fills_some htarget, Payload.family_of_mem_successorSlots hslot] at hfills
      exact hfills
    | merge hend hmerge hlisted => exact ⟨_, hmerge, rfl⟩

/-- **Control has a way on from every node that is not complained about**, unless it is terminal. -/
theorem Kept.exists_controlStep (h : g.Kept) (hacyclic : g.controlFlow.Acyclic)
    (hmember : g.member? id = some payload) (hcontrol : payload.kind.isA .control = true)
    (hexit : g.exitComplaints g.controlFlow id = [])
    (hterminal : payload.kind.isA .terminal = false) :
    ∃ next, g.ControlStep id next := by
  rcases exit_of_no_complaint hmember hexit with hkind | ⟨-, hlength⟩ | ⟨hend, hset⟩
  · exact absurd (hkind.symm.trans hterminal) (by simp)
  · obtain ⟨next, hnext⟩ := List.length_eq_one_iff.mp hlength
    have hmem : next ∈ g.controlFlow.next id := by simp [hnext]
    exact ⟨next, (h.edge_controlFlow_iff hacyclic).mp (Digraph.mem_next_iff.mp hmem)⟩
  · obtain ⟨slot, hslot⟩ := Payload.exists_successorSlot hcontrol hterminal hend
    obtain ⟨next, hnext⟩ := Option.ne_none_iff_exists'.mp (hset slot hslot)
    exact ⟨next, .successor hmember hslot hnext⟩

/-- **Verified control flow always ends.**  In a reachable graph with an owner and one start node
about which verification has no errors, no path of control from the start goes on for ever; there
is one terminal node, of the kind the owner asks for, and every path that cannot be extended ends
there; and every node control reaches is a member on the control flow that has all its successor
slots set, terminal nodes and ends of branches apart. -/
theorem Reachable.control_arrives {owner : Owner} (h : g.Reachable) (howner : g.owner = some owner)
    (hstart : g.membersOf (.exactly .start) = [start]) (hverify : g.verify.errors = []) :
    (¬ ∃ path : Nat → NodeId, path 0 = start ∧ ∀ n, g.ControlStep (path n) (path (n + 1))) ∧
    (∃ terminal, g.ends = [terminal] ∧ g.kind? terminal = some owner.role.terminal ∧
      ∀ id, Relation.ReflTransGen g.ControlStep start id → (∀ next, ¬ g.ControlStep id next) →
        id = terminal) ∧
    ∀ id, Relation.ReflTransGen g.ControlStep start id →
      ∃ payload, g.member? id = some payload ∧ payload.kind.isA .control = true ∧
        (payload.kind.isA .terminal = false → payload.kind ≠ .branchEnd →
          ∀ slot ∈ payload.successorSlots, slot.target ≠ none) := by
  have hkept := h.kept
  rw [verify] at hverify
  simp only [Diagnostics.errors_append, List.append_eq_nil_iff] at hverify
  obtain ⟨⟨⟨-, hterminal⟩, hcontrol⟩, -⟩ := hverify
  obtain ⟨terminal, hends, hkind⟩ := ends_of_checkTerminal howner hterminal
  obtain ⟨hcyclic, hexits⟩ := exits_of_checkControlFlow hstart hcontrol
  obtain ⟨order, hforward, hnodup, horder⟩ := Digraph.exists_forward hkept.controlFlow.1 hcyclic
  have hmem : ∀ {u v}, g.controlFlow.Edge u v → u ∈ order :=
    fun hedge => (horder _).mpr (hkept.controlFlow.1 hedge).1
  have hacyclic := hforward.acyclic hnodup hmem
  have hfrom : g.Offers start .control := by
    obtain ⟨payload, hmember, hadmits⟩ := mem_membersOf_iff.mp
      (show start ∈ g.membersOf (.exactly .start) by simp [hstart])
    refine ⟨payload, hmember, ?_⟩
    rw [← of_decide_eq_true hadmits]
    rfl
  have hquiet : ∀ {id}, Relation.ReflTransGen g.ControlStep start id →
      g.exitComplaints g.controlFlow id = [] := by
    intro id hpath
    refine hexits id (Digraph.mem_depthFirst_of_path (Relation.ReflTransGen.mono ?_ _ _ hpath))
    exact fun _ _ => hkept.edge_of_controlStep
  refine ⟨?_, ⟨terminal, hends, hkind, ?_⟩, ?_⟩
  · rintro ⟨path, -, hpath⟩
    exact hforward.bounded hnodup hmem path fun n => hkept.edge_of_controlStep (hpath n)
  · intro id hpath hlast
    obtain ⟨payload, hmember, hfamily⟩ := hkept.control_of_path hfrom hpath
    have hend : id ∈ g.ends := by
      refine mem_membersOf_iff.mpr ⟨payload, hmember, ?_⟩
      by_contra hnot
      obtain ⟨next, hnext⟩ := hkept.exists_controlStep hacyclic hmember hfamily (hquiet hpath)
        (by simpa [Filter.admits] using hnot)
      exact hlast next hnext
    simpa [hends] using hend
  · intro id hpath
    obtain ⟨payload, hmember, hfamily⟩ := hkept.control_of_path hfrom hpath
    refine ⟨payload, hmember, hfamily, fun hnot hne => ?_⟩
    rcases exit_of_no_complaint hmember (hquiet hpath) with hkind | ⟨hkind, -⟩ | ⟨-, hset⟩
    · exact absurd (hkind.symm.trans hnot) (by simp)
    · exact absurd hkind hne
    · exact hset

/-- An instruction with one branch, both ways of which are merged. -/
def forking : Graph :=
  ([.add (.field "flag" (.uint 1)), .add (.branchEnd []), .add (.branchEnd []),
    .add (.blockStart (some ⟨1⟩)), .add (.blockStart (some ⟨2⟩)), .add (.instrEnd []),
    .add (.merge [⟨1⟩, ⟨2⟩] (some ⟨5⟩)), .add (.branch ⟨0⟩ (some ⟨3⟩) (some ⟨4⟩)),
    .add (.start (some ⟨7⟩)), .setOwner ⟨"skip", .instruction, none⟩] : List Move).foldl
      (fun g move => move.after g) (empty "skip")

/-- Control that starts at the start of an instruction ends at its end. -/
theorem control_arrives_forking :
    forking.verify.errors = [] ∧ forking.ends = [⟨5⟩] ∧
    ∀ id, Relation.ReflTransGen forking.ControlStep ⟨8⟩ id →
      (∀ next, ¬ forking.ControlStep id next) → id = ⟨5⟩ := by
  have hverify : forking.verify.errors = [] := by cbv
  have hends : forking.ends = [⟨5⟩] := by cbv
  obtain ⟨-, ⟨terminal, hterminal, -, hpaths⟩, -⟩ := (reachable_foldl "skip" _).control_arrives
    (show forking.owner = some ⟨"skip", .instruction, none⟩ by cbv)
    (show forking.membersOf (.exactly .start) = [⟨8⟩] by cbv) hverify
  obtain rfl : terminal = ⟨5⟩ := by
    have hsame := hterminal.symm.trans hends
    simpa using hsame
  exact ⟨hverify, hends, hpaths⟩

end Graph

end BehaviorGraph
