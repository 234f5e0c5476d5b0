/-
# The order of nodes

The dataflow order of a graph is made from its members and their inputs alone.  Where the records
of a graph agree every input leads to a member (`dataflow_eq_ok`), so the only thing that can go
wrong is that a member reads itself, at whatever distance, and the error names such a member
(`dataflowOrder_sequenced`).

Hence a reachable graph has a dataflow order exactly if reading has no cycles.  The order is then a
permutation of the members in which every member stands behind what it reads, and **nothing but the
inputs of the members plays a part in it** (`dataflowOrder_congr`).
-/
import BehaviorGraph.Proofs.Histories
import BehaviorGraph.Proofs.Ordering
import BehaviorGraph.Proofs.Outline

namespace BehaviorGraph

namespace Graph

variable {g g' : Graph} {id target : NodeId}

/-! ## 1. Orders and cycles -/

/-- A cycle of the dataflow is a cycle of readings, the other way round. -/
theorem cycle_flow_iff :
    Relation.TransGen g.flow.Edge id id ↔ Relation.TransGen g.ReadsFrom id id := by
  have hswap : g.flow.Edge = Function.swap g.ReadsFrom := by
    funext source user
    exact propext edge_flow_iff
  rw [hswap, Relation.transGen_swap]

/-- **What a dataflow order is**: each member once, behind what it reads; and what is reported
otherwise. -/
inductive Sequenced (g : Graph) : Except Error (List NodeId) → Prop
  | ordered {order : List NodeId} (hperm : order.Perm g.members)
    (hreads : ∀ {user source}, g.ReadsFrom user source → order.idxOf source < order.idxOf user)
    (hacyclic : g.Acyclic) : Sequenced g (.ok order)
  | circular {id : NodeId} (hcycle : Relation.TransGen g.ReadsFrom id id) :
    Sequenced g (.error (g.structureError (id.text ++ " depends on itself")))

/-- **Where the records agree, the members are sequenced or one of them reads itself.** -/
theorem dataflowOrder_sequenced (h : g.Kept) : g.Sequenced g.dataflowOrder := by
  have hmembers : ∀ id, id ∈ g.flow.vertices ↔ id ∈ g.members := fun id => mem_vertices_flow_iff h
  rw [dataflowOrder, dataflow_eq_ok h]
  rcases Digraph.order?_cases g.closed_flow with ⟨order, horder, hforward, hnodup, hmem⟩
    | ⟨id, horder, hcycle⟩
  · simp only [bind, Except.bind, horder]
    have hin : ∀ {user source}, g.flow.Edge source user → source ∈ order := fun hedge =>
      (hmem _).mpr (g.closed_flow hedge).1
    refine .ordered ?_ (fun hreads => ?_) fun id hcycle => ?_
    · refine (List.perm_ext_iff_of_nodup hnodup g.nodup_members).mpr fun id => ?_
      rw [hmem, hmembers]
    · have hedge := edge_flow_iff.mpr hreads
      exact hforward.idxOf_lt hnodup (hin hedge) hedge
    · exact hforward.acyclic hnodup hin id (cycle_flow_iff.mpr hcycle)
  · simp only [bind, Except.bind, horder]
    exact .circular (cycle_flow_iff.mp hcycle)

/-! ## 2. What plays a part -/

/-- A fold does the same with steps that do the same with its items. -/
theorem foldlM_congr {ε α β : Type} {step step' : β → α → Except ε β} {items : List α}
    (h : ∀ b, ∀ a ∈ items, step b a = step' b a) (start : β) :
    items.foldlM step start = items.foldlM step' start := by
  induction items generalizing start with
  | nil => rfl
  | cons a items ih =>
    rw [List.foldlM_cons, List.foldlM_cons, h start a List.mem_cons_self]
    congr 1
    funext b
    exact ih (fun b a ha => h b a (List.mem_cons_of_mem _ ha)) b

/-- **Graphs of one name and owner with the same members, which have the same inputs, have the same
dataflow order**, or the same error, whatever else they differ in. -/
theorem dataflowOrder_congr (hname : g'.name = g.name) (howner : g'.owner = g.owner)
    (hactive : ∀ id, g'.isActive id = g.isActive id)
    (hinputs : ∀ id, g.isActive id = true → g'.inputs id = g.inputs id) :
    g'.dataflowOrder = g.dataflowOrder := by
  have hmembers : g'.members = g.members := by
    refine eq_of_mem_iff g'.pairwise_members g.pairwise_members fun id => ?_
    rw [mem_members_iff, mem_members_iff, ← isActive_iff, ← isActive_iff, hactive]
  have hflow : g'.dataflow = g.dataflow := by
    unfold dataflow
    rw [hmembers]
    refine foldlM_congr (fun flow id hid => ?_) _
    simp only [hinputs id (isActive_iff.mpr (mem_members_iff.mp hid)), hactive, hname]
  have herror : ∀ message, g'.structureError message = g.structureError message := by
    intro message
    simp only [structureError, position, hname, howner]
  unfold dataflowOrder
  simp only [hflow, herror]

/-! ## 3. Reachable graphs -/

/-- **A reachable graph has a dataflow order exactly if no member reads itself**, at whatever
distance.  The order lists every active node once, behind all that its inputs lead to.  Otherwise
the error names a node that reads itself; no input that leads to a node that is not active is ever
met.  Successors play no part: a graph with the same active nodes and the same inputs of each has
the same order. -/
theorem Reachable.dataflow_sequences (h : g.Reachable) :
    ((∃ order, g.dataflowOrder = .ok order) ↔ g.Acyclic) ∧
    (∀ order, g.dataflowOrder = .ok order →
      order.Nodup ∧ (∀ id, id ∈ order ↔ g.isActive id = true) ∧
      ∀ id target, g.isActive id = true → some target ∈ g.inputs id →
        order.idxOf target < order.idxOf id) ∧
    (∀ error, g.dataflowOrder = .error error →
      (∃ id, Relation.TransGen g.ReadsFrom id id ∧
        error = g.structureError (id.text ++ " depends on itself")) ∧
      ∀ id target : NodeId, error ≠ .internal (id.text ++ " reads " ++ target.text
        ++ ", which is not a live node of `" ++ g.name ++ "`")) ∧
    ∀ g' : Graph, g'.name = g.name → g'.owner = g.owner →
      (∀ id, g'.isActive id = g.isActive id) →
      (∀ id, g.isActive id = true → g'.inputs id = g.inputs id) →
      g'.dataflowOrder = g.dataflowOrder := by
  have hreads : ∀ {id target}, g.isActive id = true → some target ∈ g.inputs id →
      g.ReadsFrom id target := by
    intro id target hactive hinput
    obtain ⟨payload, hmember⟩ := isActive_iff.mp hactive
    rw [inputs, payload?_of_member? hmember] at hinput
    exact ⟨payload, hmember, Payload.mem_inputs_iff.mp hinput⟩
  refine ⟨?_, ?_, ?_, fun g' => dataflowOrder_congr⟩
  all_goals
    generalize hresult : g.dataflowOrder = result
    have hsequenced : g.Sequenced result := hresult ▸ dataflowOrder_sequenced h.kept
  · cases hsequenced with
    | ordered hperm hbefore hacyclic => exact ⟨fun _ => hacyclic, fun _ => ⟨_, rfl⟩⟩
    | @circular id hcycle =>
      exact ⟨fun hok => absurd hok (by simp), fun hacyclic => absurd hcycle (hacyclic id)⟩
  · rintro order rfl
    cases hsequenced with
    | ordered hperm hbefore hacyclic =>
      refine ⟨hperm.nodup_iff.mpr g.nodup_members, fun id => ?_, fun id target hactive hinput => ?_⟩
      · rw [hperm.mem_iff, mem_members_iff, isActive_iff]
      · exact hbefore (hreads hactive hinput)
  · rintro error rfl
    cases hsequenced with
    | @circular id hcycle =>
      refine ⟨⟨id, hcycle, rfl⟩, fun user source heq => ?_⟩
      exact absurd (congrArg Error.cause heq) (by simp [structureError, Error.locatedAt,
        Error.malformedStructure, Error.internal])

/-- An instruction whose end was created before what it waits for. -/
def lateEnd : Graph :=
  ([.create (.instrEnd []), .add (.readReg "A" (.uint 8)), .add (.readReg "B" (.uint 8)),
    .add (.builtInCall [⟨1⟩, ⟨2⟩] .add (.uint 8)), .add (.writeReg ⟨3⟩ none "A"),
    .setPayload ⟨0⟩ (.instrEnd [⟨4⟩]), .add (.start (some ⟨0⟩))]
      : List Move).foldl (fun g move => move.after g) (.empty "f")

/-- The same with a sum that reads itself. -/
def knotted : Graph :=
  ([.create (.instrEnd []), .add (.readReg "A" (.uint 8)), .add (.readReg "B" (.uint 8)),
    .add (.builtInCall [⟨1⟩, ⟨2⟩] .add (.uint 8)), .add (.writeReg ⟨3⟩ none "A"),
    .redirectInputs ⟨3⟩ (fun place old => if place = 1 then some ⟨3⟩ else old)]
      : List Move).foldl (fun g move => move.after g) (.empty "f")

/-- The end stands behind the write in the order of the one; the other has none, and the error
names the sum. -/
theorem dataflow_sequences_lateEnd :
    lateEnd.dataflowOrder = .ok [⟨5⟩, ⟨2⟩, ⟨1⟩, ⟨3⟩, ⟨4⟩, ⟨0⟩] ∧ lateEnd.Acyclic ∧
    knotted.dataflowOrder = .error (knotted.structureError "n3 depends on itself") ∧
    ¬ knotted.Acyclic := by
  have hordered : lateEnd.dataflowOrder = .ok [⟨5⟩, ⟨2⟩, ⟨1⟩, ⟨3⟩, ⟨4⟩, ⟨0⟩] := by cbv
  have hcircular :
      knotted.dataflowOrder = .error (knotted.structureError "n3 depends on itself") := by cbv
  obtain ⟨hlate, -⟩ := Reachable.dataflow_sequences (reachable_foldl "f" _ : lateEnd.Reachable)
  obtain ⟨hknotted, -⟩ := Reachable.dataflow_sequences (reachable_foldl "f" _ : knotted.Reachable)
  refine ⟨hordered, hlate.mp ⟨_, hordered⟩, hcircular, fun hacyclic => ?_⟩
  obtain ⟨order, hok⟩ := hknotted.mpr hacyclic
  exact absurd (hcircular.symm.trans hok) (by simp)

end Graph

end BehaviorGraph
