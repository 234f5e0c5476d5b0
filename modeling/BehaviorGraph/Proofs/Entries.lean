/-
# The ways into a node

A graph has one way into a control node for each successor slot that leads there (`Graph.entries`),
and one way from the end of a branch for each time a merging node lists it (`Graph.listings`).
Verification counts both in a directed graph that has one edge for two nodes, however often the one
leads to the other.  What it ensures is that **one node leads there** (`Kept.eq_of_controlSteps`),
and that one merging node takes the end of a branch (`Kept.exists_merge`).

So the ways themselves are single (`Graph.SingleEntry`) in all verified graphs but two sorts: a
branch may have the same node on both sides, and a merging node may list the end of a branch twice
(`Reachable.singleEntry_iff`).
-/
import BehaviorGraph.Proofs.Relocating

namespace BehaviorGraph

/-! ## 1. Counting in parts -/

section Counting

variable {α β : Type} {items : List α} {f : α → List β} {a : α} {b b' : β}

theorem eq_of_length_le_one {found : List β} (h : found.length ≤ 1) (hb : b ∈ found)
    (hb' : b' ∈ found) : b = b' := by
  match found, h with
  | [only], _ => exact (List.mem_singleton.mp hb).trans (List.mem_singleton.mp hb').symm

variable [BEq β] [LawfulBEq β]

theorem count_flatMap_eq_zero (h : ∀ a ∈ items, b ∉ f a) : (items.flatMap f).count b = 0 := by
  refine List.count_eq_zero.mpr fun hmem => ?_
  obtain ⟨a, ha, hb⟩ := List.mem_flatMap.mp hmem
  exact h a ha hb

/-- Where only one part has something, counting it there is counting it everywhere. -/
theorem count_flatMap_of_unique (hnodup : items.Nodup) (ha : a ∈ items)
    (h : ∀ other ∈ items, b ∈ f other → other = a) : (items.flatMap f).count b = (f a).count b := by
  obtain ⟨before, after, rfl⟩ := List.append_of_mem ha
  obtain ⟨hfresh, -⟩ := List.nodup_cons.mp (List.nodup_middle.mp hnodup)
  have hothers : ∀ other ∈ before ++ after, b ∉ f other := by
    intro other hother hb
    refine hfresh (h other ?_ hb ▸ hother)
    exact (List.mem_append.mp hother).elim (List.mem_append_left _)
      fun hin => List.mem_append_right _ (List.mem_cons_of_mem a hin)
  rw [List.flatMap_append, List.flatMap_cons, List.count_append, List.count_append,
    count_flatMap_eq_zero fun other hin => hothers other (List.mem_append_left _ hin),
    count_flatMap_eq_zero fun other hin => hothers other (List.mem_append_right _ hin),
      Nat.zero_add, Nat.add_zero]

end Counting

/-- A payload leads to a node by one slot at most, unless it is a branch with that node on both
sides. -/
theorem Payload.count_successors_le_one_iff {payload : Payload} {id : NodeId} :
    payload.successors.count (some id) ≤ 1 ↔ ∀ condition,
      payload ≠ .branch condition (some id) (some id) := by
  cases payload with
  | branch condition trueBranch falseBranch =>
    by_cases htrue : trueBranch = some id <;> by_cases hfalse : falseBranch = some id <;>
      simp [successors, successorSlots, Slot.maybe, htrue, hfalse]
  | start next | blockStart next | merge branchEnds next =>
    by_cases hnext : next = some id <;> simp [successors, successorSlots, Slot.maybe, hnext]
  | _ => simp [successors, successorSlots]

namespace Graph

variable {g : Graph} {id one other user start : NodeId} {payload : Payload}

/-! ## 2. The ways in -/

/-- The number of successor slots of the whole graph that lead to a node. -/
def entries (g : Graph) (id : NodeId) : Nat := (g.members.flatMap g.successors).count (some id)

/-- The ends of branches a node lists as those it merges. -/
def mergedBranches (g : Graph) (id : NodeId) : List NodeId :=
  match g.payload? id with
  | some (.merge branchEnds _) => branchEnds
  | _ => []

/-- The number of times a node is listed by merging nodes. -/
def listings (g : Graph) (id : NodeId) : Nat := (g.members.flatMap g.mergedBranches).count id

/-- **There is one way into each node**: at most one slot leads to a control node that does not
merge, and where control comes to the end of a branch, that is listed once. -/
structure SingleEntry (g : Graph) (start : NodeId) : Prop where
  entered : ∀ {id}, g.Offers id .control → g.kind? id ≠ some .merge → g.entries id ≤ 1
  merged : ∀ {id}, Relation.ReflTransGen g.ControlStep start id → g.kind? id = some .branchEnd →
    g.listings id = 1

theorem exists_branchEnd (hmember : g.member? id = some payload)
    (hkind : g.kind? id = some .branchEnd) :
    ∃ effects, payload = .branchEnd effects := by
  rw [kind?_of_member? hmember] at hkind
  cases payload <;> first | exact ⟨_, rfl⟩ | exact absurd hkind (by simp [Payload.kind])

/-- A node that does not merge is entered along successor edges only. -/
theorem controlStep_iff_of_ne_merge (hmerge : g.kind? id ≠ some .merge)
    (hmember : g.member? user = some payload) :
    g.ControlStep user id ↔ some id ∈ g.successors user := by
  rw [mem_successors_iff hmember]
  constructor
  · intro hstep
    cases hstep with
    | successor hfound hslot htarget =>
      obtain rfl := Option.some.inj (hmember.symm.trans hfound)
      exact ⟨_, hslot, htarget⟩
    | merge hend htarget hlisted => exact absurd (kind?_of_member? htarget) hmerge
  · rintro ⟨slot, hslot, htarget⟩
    exact .successor hmember hslot htarget

/-- From the end of a branch control goes to what lists it. -/
theorem controlStep_iff_of_branchEnd {effects : List NodeId}
    (hend : g.member? id = some (.branchEnd effects)) :
    g.ControlStep id user ↔ user ∈ g.members ∧ id ∈ g.mergedBranches user := by
  constructor
  · intro hstep
    cases hstep with
    | successor hfound hslot htarget =>
      obtain rfl := Option.some.inj (hend.symm.trans hfound)
      exact absurd hslot List.not_mem_nil
    | merge hfound hmerge hlisted =>
      refine ⟨mem_members_iff.mpr ⟨_, hmerge⟩, ?_⟩
      rwa [mergedBranches, payload?_of_member? hmerge]
  · rintro ⟨huser, hlisted⟩
    obtain ⟨payload, hmember⟩ := mem_members_iff.mp huser
    rw [mergedBranches, payload?_of_member? hmember] at hlisted
    cases payload <;>
      first
        | exact .merge hend hmember hlisted
        | exact absurd hlisted List.not_mem_nil

/-! ## 3. What the check of the control flow ensures -/

/-- Nothing is found about the ways into any control node. -/
theorem entries_of_checkControlFlow (hstart : g.membersOf (.exactly .start) = [start])
    (h : g.checkControlFlow.errors = []) :
    ∀ id ∈ g.controlFlow.vertices, g.entryComplaint? g.controlFlow id = none := by
  unfold checkControlFlow at h
  rw [hstart] at h
  simp only [List.map_eq_nil_iff, List.append_eq_nil_iff] at h
  exact List.filterMap_eq_nil_iff.mp h.1.1.2

/-- A node about which nothing is found has one predecessor at most, unless it merges. -/
theorem length_previous_le_one {flow : Digraph NodeId} (hmerge : g.kind? id ≠ some .merge)
    (h : g.entryComplaint? flow id = none) : (flow.previous id).length ≤ 1 := by
  unfold entryComplaint? at h
  split at h
  · exact absurd ‹_› hmerge
  · dsimp only at h
    split at h
    · exact absurd h (by simp)
    · omega
  · dsimp only at h
    split at h
    · exact absurd h (by simp)
    · omega

/-- **Control comes to a node from one node only**, unless that merges. -/
theorem Kept.eq_of_controlSteps (h : g.Kept) (hmerge : g.kind? id ≠ some .merge)
    (hcomplaint : g.entryComplaint? g.controlFlow id = none) (hone : g.ControlStep one id)
    (hother : g.ControlStep other id) : one = other :=
  eq_of_length_le_one (length_previous_le_one hmerge hcomplaint)
    (Digraph.mem_previous_iff.mpr (h.edge_of_controlStep hone))
    (Digraph.mem_previous_iff.mpr (h.edge_of_controlStep hother))

/-- **Where only one node leads to a node, one slot does**, unless that is a branch with the node
on both sides. -/
theorem entries_le_one_iff (hmerge : g.kind? id ≠ some .merge)
    (hunique : ∀ one other, g.ControlStep one id → g.ControlStep other id → one = other) :
    g.entries id ≤ 1 ↔
      ∀ user condition, g.member? user ≠ some (.branch condition (some id) (some id)) := by
  have hstep : ∀ {user payload}, g.member? user = some payload → some id ∈ g.successors user →
      g.ControlStep user id :=
    fun hmember hleads => (controlStep_iff_of_ne_merge hmerge hmember).mpr hleads
  by_cases hentered : ∃ user ∈ g.members, some id ∈ g.successors user
  · obtain ⟨user, huser, hleads⟩ := hentered
    obtain ⟨payload, hmember⟩ := mem_members_iff.mp huser
    have hentries : g.entries id = payload.successors.count (some id) := by
      rw [entries, count_flatMap_of_unique (nodup_members g) huser, successors,
        payload?_of_member? hmember]
      intro other hother hothers
      obtain ⟨found, hfound⟩ := mem_members_iff.mp hother
      exact hunique other user (hstep hfound hothers) (hstep hmember hleads)
    rw [hentries, Payload.count_successors_le_one_iff]
    refine ⟨fun hne other condition hother => ?_, fun hne condition => ?_⟩
    · have hboth : some id ∈ g.successors other := by
        rw [successors, payload?_of_member? hother]
        exact List.mem_cons_self
      obtain rfl := hunique other user (hstep hother hboth) (hstep hmember hleads)
      exact hne condition (Option.some.inj (hmember.symm.trans hother))
    · rintro rfl
      exact hne user condition hmember
  · have hnone : g.entries id = 0 :=
      count_flatMap_eq_zero fun user huser hleads => hentered ⟨user, huser, hleads⟩
    refine iff_of_true (by omega) fun user condition hmember =>
      hentered ⟨user, mem_members_iff.mpr ⟨_, hmember⟩, ?_⟩
    rw [successors, payload?_of_member? hmember]
    exact List.mem_cons_self

/-- Where only one node lists the end of a branch, it is listed as often as there. -/
theorem listings_eq {effects branchEnds : List NodeId} {next : Option NodeId}
    (hend : g.member? id = some (.branchEnd effects))
    (hmember : g.member? user = some (.merge branchEnds next))
    (hunique : ∀ other, g.ControlStep id other → other = user) :
      g.listings id = branchEnds.count id := by
  rw [listings, count_flatMap_of_unique (nodup_members g) (mem_members_iff.mpr ⟨_, hmember⟩),
    mergedBranches, payload?_of_member? hmember]
  exact fun other hother hlisted => hunique other
    ((controlStep_iff_of_branchEnd hend).mpr ⟨hother, hlisted⟩)

/-- **The end of a branch is listed by one node only.** -/
theorem Kept.exists_merge (h : g.Kept) (hacyclic : g.controlFlow.Acyclic) {effects : List NodeId}
    (hend : g.member? id = some (.branchEnd effects))
    (hexit : g.exitComplaints g.controlFlow id = []) :
    ∃ merge branchEnds next, g.member? merge = some (.merge branchEnds next) ∧ id ∈ branchEnds ∧
      (∀ other, g.ControlStep id other → other = merge) ∧ g.listings id = branchEnds.count id := by
  obtain hterminal | ⟨-, hlength⟩ | ⟨hne, -⟩ := exit_of_no_complaint hend hexit
  · exact Bool.noConfusion hterminal
  · obtain ⟨merge, hmerge⟩ := List.length_eq_one_iff.mp hlength
    have hnext : ∀ other, g.ControlStep id other ↔ other = merge := by
      intro other
      rw [← h.edge_controlFlow_iff hacyclic, ← List.mem_singleton, ← hmerge]
      exact Digraph.mem_next_iff.symm
    have hunique : ∀ other, g.ControlStep id other → other = merge := fun other => (hnext other).mp
    cases (hnext merge).mpr rfl with
    | successor hfound hslot htarget =>
      obtain rfl := Option.some.inj (hend.symm.trans hfound)
      exact absurd hslot List.not_mem_nil
    | merge hfound hmember hlisted =>
      exact ⟨merge, _, _, hmember, hlisted, hunique, listings_eq hend hmember hunique⟩
  · exact absurd rfl hne

/-! ## 4. Verified graphs -/

/-- The start is a control node. -/
theorem offers_start (hstart : g.membersOf (.exactly .start) = [start]) :
    g.Offers start .control := by
  obtain ⟨payload, hmember, hadmits⟩ := mem_membersOf_iff.mp
    (show start ∈ g.membersOf (.exactly .start) by simp [hstart])
  refine ⟨payload, hmember, ?_⟩
  rw [← of_decide_eq_true hadmits]
  rfl

/-- **Where nothing is found about the control flow, one node leads to each control node that does
not merge**, by one slot unless it is a branch with that node on both sides. -/
theorem Kept.entered_from_one (h : g.Kept) (hstart : g.membersOf (.exactly .start) = [start])
    (hcontrol : g.checkControlFlow.errors = []) (hoffers : g.Offers id .control)
    (hmerge : g.kind? id ≠ some .merge) :
    (∀ one other, g.ControlStep one id → g.ControlStep other id → one = other) ∧
      (g.entries id ≤ 1 ↔
        ∀ user condition, g.member? user ≠ some (.branch condition (some id) (some id))) := by
  obtain ⟨payload, hmember, hfamily⟩ := hoffers
  have hvertex : id ∈ g.controlFlow.vertices :=
    h.mem_vertices_controlFlow_iff.mpr (mem_membersOf_iff.mpr ⟨payload, hmember, hfamily⟩)
  have hunique : ∀ one other, g.ControlStep one id → g.ControlStep other id → one = other :=
    fun one other => h.eq_of_controlSteps hmerge
      (entries_of_checkControlFlow hstart hcontrol id hvertex)
  exact ⟨hunique, entries_le_one_iff hmerge hunique⟩

/-- **Where nothing is found about the control flow, one node takes each end of a branch that
control reaches.** -/
theorem Kept.merged_by_one (h : g.Kept) (hstart : g.membersOf (.exactly .start) = [start])
    (hcontrol : g.checkControlFlow.errors = [])
    (hpath : Relation.ReflTransGen g.ControlStep start id)
    (hkind : g.kind? id = some .branchEnd) : ∃ effects merge branchEnds next,
      g.member? id = some (.branchEnd effects) ∧ g.member? merge = some (.merge branchEnds next) ∧
      id ∈ branchEnds ∧
        (∀ other, g.ControlStep id other → other = merge) ∧
          g.listings id = branchEnds.count id := by
  obtain ⟨hcyclic, hexits⟩ := exits_of_checkControlFlow hstart hcontrol
  have hacyclic : g.controlFlow.Acyclic :=
    (Digraph.isCyclic_eq_false_iff h.controlFlow.1).mp hcyclic
  obtain ⟨payload, hmember, -⟩ := h.control_of_path (offers_start hstart) hpath
  obtain ⟨effects, rfl⟩ := exists_branchEnd hmember hkind
  have hexit := hexits id (Digraph.mem_depthFirst_of_path
    (Relation.ReflTransGen.mono (fun _ _ => h.edge_of_controlStep) _ _ hpath))
  obtain ⟨merge, branchEnds, next, hmerge, hlisted, hunique, hlistings⟩ :=
    h.exists_merge hacyclic hmember hexit
  exact ⟨effects, merge, branchEnds, next, hmember, hmerge, hlisted, hunique, hlistings⟩

/-- **One way into each node, two exceptions apart.**  Take a reachable graph with one start node
about which verification has no errors.

Control comes to a node that does not merge from one node at most, and two slots lead there only if
that node is a branch which has it on both sides.  The end of a branch that control reaches is
listed by one merging node, and as often altogether as that one lists it.

So there is one way into each node exactly if no branch has the same node on both sides and no
merging node lists the end of a branch that control reaches twice.  Neither is an error. -/
theorem Reachable.singleEntry_iff (h : g.Reachable)
    (hstart : g.membersOf (.exactly .start) = [start]) (hverify : g.verify.errors = []) :
    (g.SingleEntry start ↔
      (∀ user condition way, g.member? user ≠ some (.branch condition (some way) (some way))) ∧
      ∀ user branchEnds next, g.member? user = some (.merge branchEnds next) →
        ∀ id, Relation.ReflTransGen g.ControlStep start id → branchEnds.count id ≤ 1) ∧
    (∀ id, g.Offers id .control → g.kind? id ≠ some .merge →
      (∀ one other, g.ControlStep one id → g.ControlStep other id → one = other) ∧
      (g.entries id ≤ 1 ↔
        ∀ user condition, g.member? user ≠ some (.branch condition (some id) (some id)))) ∧
    ∀ id, Relation.ReflTransGen g.ControlStep start id → g.kind? id = some .branchEnd →
      ∃ merge branchEnds next, g.member? merge = some (.merge branchEnds next) ∧ id ∈ branchEnds ∧
        (∀ other, g.ControlStep id other → other = merge) ∧
          g.listings id = branchEnds.count id := by
  have hkept := h.kept
  rw [verify] at hverify
  simp only [Diagnostics.errors_append, List.append_eq_nil_iff] at hverify
  obtain ⟨⟨-, hcontrol⟩, hkinds⟩ := hverify
  have hlawful : g.Lawful := checkKinds_errors_eq_nil_iff.mp hkinds
  refine ⟨⟨fun honce => ⟨fun user condition way huser => ?_,
    fun user branchEnds next huser id hpath => ?_⟩,
    fun hplain => ⟨fun {id} hoffers hmerge => ?_, fun {id} hpath hkind => ?_⟩⟩,
    fun id => hkept.entered_from_one hstart hcontrol, fun id hpath hkind => ?_⟩
  · -- What a branch leads to starts a block, so it does not merge.
    have hkind : g.kind? way = some .blockStart := (hlawful huser).2.1 way rfl
    have hmerge : g.kind? way ≠ some .merge := by simp [hkind]
    have hoffers : g.Offers way .control := (fills_some rfl).mp (hkept.filled huser
      (.maybe "true_branch" .control (some way)) (by simp [Payload.slots, Payload.successorSlots]))
    exact (hkept.entered_from_one hstart hcontrol hoffers hmerge).2.mp
      (honce.entered hoffers hmerge) user condition huser
  · by_cases hlisted : id ∈ branchEnds
    · have hkind : g.kind? id = some .branchEnd := (hlawful huser).2 id hlisted
      obtain ⟨effects, merge, -, -, hmember, -, -, hunique, -⟩ :=
        hkept.merged_by_one hstart hcontrol hpath hkind
      have hlistings := listings_eq hmember huser fun other hother =>
        (hunique other hother).trans (hunique user (.merge hmember huser hlisted)).symm
      exact (hlistings.symm.trans (honce.merged hpath hkind)).le
    · rw [List.count_eq_zero.mpr hlisted]
      exact Nat.zero_le 1
  · exact (hkept.entered_from_one hstart hcontrol hoffers hmerge).2.mpr fun user condition =>
      hplain.1 user condition id
  · obtain ⟨-, merge, branchEnds, next, -, hmember, hlisted, -, hlistings⟩ :=
      hkept.merged_by_one hstart hcontrol hpath hkind
    have hle := hplain.2 merge branchEnds next hmember id hpath
    have hpos := List.count_pos_iff.mpr hlisted
    omega
  · obtain ⟨-, merge, branchEnds, next, -, hmerge, hlisted, hunique, hlistings⟩ :=
      hkept.merged_by_one hstart hcontrol hpath hkind
    exact ⟨merge, branchEnds, next, hmerge, hlisted, hunique, hlistings⟩

/-- An instruction with a branch that has the same node on both sides, and a node that merges its
end twice. -/
def doubled : Graph :=
  ([.add (.readReg "F" (.uint 1)), .add (.branchEnd []), .add (.blockStart (some ⟨1⟩)),
    .add (.instrEnd []), .add (.merge [⟨1⟩, ⟨1⟩] (some ⟨3⟩)),
      .add (.branch ⟨0⟩ (some ⟨2⟩) (some ⟨2⟩)), .add (.start (some ⟨5⟩)),
    .setOwner ⟨"skip", .instruction, none⟩] : List Move).foldl (fun g move => move.after g)
      (empty "skip")

/-- Nothing is wrong with the instruction, although two slots lead to the start of the block and
its end is listed twice. -/
theorem singleEntry_iff_doubled :
    doubled.verify.errors = [] ∧ ¬ doubled.SingleEntry ⟨6⟩ ∧ ¬ doubled.entries ⟨2⟩ ≤ 1 ∧
    doubled.listings ⟨1⟩ = 2 := by
  have hgraph : doubled =
      { name := "skip"
        owner := some ⟨"skip", .instruction, none⟩
        nodes :=
          #[⟨.readReg "F" (.uint 1), .active, true, [⟨5⟩]⟩,
            ⟨.branchEnd [], .active, true, [⟨2⟩, ⟨4⟩, ⟨4⟩]⟩,
          ⟨.blockStart (some ⟨1⟩), .active, true, [⟨5⟩, ⟨5⟩]⟩, ⟨.instrEnd [], .active, true, [⟨4⟩]⟩,
          ⟨.merge [⟨1⟩, ⟨1⟩] (some ⟨3⟩), .active, true, []⟩,
          ⟨.branch ⟨0⟩ (some ⟨2⟩) (some ⟨2⟩), .active, true, [⟨6⟩]⟩,
            ⟨.start (some ⟨5⟩), .active, true, []⟩] } := by cbv
  have hverify : doubled.verify.errors = [] := by rw [hgraph]; cbv
  have hstart : doubled.member? ⟨6⟩ = some (.start (some ⟨5⟩)) := by rw [hgraph]; rfl
  have hbranch : doubled.member? ⟨5⟩ = some (.branch ⟨0⟩ (some ⟨2⟩) (some ⟨2⟩)) := by
    rw [hgraph]; rfl
  have hblock : doubled.member? ⟨2⟩ = some (.blockStart (some ⟨1⟩)) := by rw [hgraph]; rfl
  have hend : doubled.member? ⟨1⟩ = some (.branchEnd []) := by rw [hgraph]; rfl
  have hmerge : doubled.member? ⟨4⟩ = some (.merge [⟨1⟩, ⟨1⟩] (some ⟨3⟩)) := by rw [hgraph]; rfl
  have hreachable : doubled.Reachable := reachable_foldl "skip" _
  obtain ⟨hiff, hentries, hlistings⟩ := hreachable.singleEntry_iff
    (show doubled.membersOf (.exactly .start) = [⟨6⟩] by rw [hgraph]; cbv) hverify
  have hpath : Relation.ReflTransGen doubled.ControlStep ⟨6⟩ ⟨1⟩ :=
    .tail (.tail (.single (.successor hstart List.mem_cons_self rfl))
      (.successor hbranch List.mem_cons_self rfl)) (.successor hblock List.mem_cons_self rfl)
  refine ⟨hverify, fun honce => (hiff.mp honce).1 _ _ _ hbranch, fun hle => ?_, ?_⟩
  · have hplain :=
      (hentries ⟨2⟩ ⟨_, hblock, rfl⟩ (by simp [kind?_of_member? hblock, Payload.kind])).2
    exact hplain.mp hle _ _ hbranch
  · obtain ⟨merge, branchEnds, next, hmember, -, hunique, hcount⟩ :=
      hlistings ⟨1⟩ hpath (by simp [kind?_of_member? hend, Payload.kind])
    obtain rfl := hunique ⟨4⟩ (.merge hend hmerge List.mem_cons_self)
    obtain ⟨rfl, -⟩ := Payload.merge.inj (Option.some.inj (hmerge.symm.trans hmember))
    exact hcount

end Graph

end BehaviorGraph
