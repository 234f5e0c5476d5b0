/-
# What is wrong with a graph, wherever its nodes are

The checks of a graph write about nodes by their places.  A complaint is what such a text says
before the places are put in (`Complaint`), so that one list of complaints can be worded for two
graphs, under the names the nodes have in each (`Graph.SaidOf`).  **A graph that is carried to
another is found to have the same faults**, worded with the places where its nodes went
(`Carries.verify`, `Carries.checkConsistency`).

The proof goes through the checks as they are written, from the inside out.

* A check that looks at one member reads its kind, its slots and the widths of what it reads, and
  all of these are carried along; so it finds the same complaint (`Carries.kindErrors`,
  `Carries.entryErrors`, `Carries.exitErrors`).
* A check that goes through members in some order finds the same complaints in an order of its own,
  because the places that nodes are carried to need not come in the order of the places they had.
  `SaidOf` therefore speaks of permutations, and lists of complaints are put together by
  `SaidOf.append`, `SaidOf.flatMap` and `SaidOf.map`.
* The bookkeeping finds nothing in either graph, since the records of both agree.

Closing up the gaps of a reachable graph is such a case (`Reachable.compacting_carries`).
-/
import BehaviorGraph.Proofs.Relocating

namespace BehaviorGraph

/-! ## 1. Complaints -/

/-- What a check finds, before the nodes it is about are put into words. -/
inductive Complaint where
  | noTerminal
  | terminals (count : Nat)
  | misplaced (id : NodeId) (role : Role)
  | missing (kind : Kind)
  | tooMany (count : Nat) (kind : Kind)
  | starts (count : Nat)
  | enteredStart (id : NodeId)
  | entered (id : NodeId) (count : Nat)
  | cycle
  | joined (id : NodeId) (merges : Nat)
  | stopped (id : NodeId) (slot : String)
  | unreached (id start : NodeId)
  | condition (id guard : NodeId) (width : Nat)
  | branch (id target : NodeId)
  | mergesNothing (id : NodeId)
  | mergesOther (id target : NodeId)
  | arity (id : NodeId) (op : BuiltIn) (count : Nat)
  | choice (id : NodeId) (type : ValueType) (value : NodeId) (width : Nat)
  | range (id value : NodeId) (high low : Nat)
  | selected (id : NodeId) (type : ValueType) (bits : Nat)
  | extension (id : NodeId) (width : Nat) (type : ValueType)
  | truncation (id : NodeId) (width : Nat) (type : ValueType)

namespace Graph

/-- A node with its kind, under another name. -/
def describeAs (g : Graph) (names : NodeId → NodeId) (id : NodeId) : String :=
  match g.kind? id with
  | some kind => (names id).text ++ " (" ++ kind.name ++ ")"
  | none => (names id).text

end Graph

/-- **The wording of a complaint about a graph**, with the nodes under other names. -/
def Complaint.error (g : Graph) (names : NodeId → NodeId) : Complaint → Error
  | noTerminal => g.controlError "graph has no terminal node"
  | terminals count => g.controlError ("graph has " ++ toString count ++ " terminal nodes")
  | misplaced id role => g.controlError (g.describeAs names id ++ " cannot end a " ++ role.name)
  | missing kind => g.controlError ("missing " ++ kind.name ++ " node")
  | tooMany count kind =>
    g.controlError (toString count ++ " " ++ kind.name ++ " nodes but exactly one is allowed")
  | starts count => g.controlError ("graph has " ++ toString count ++ " start nodes")
  | enteredStart id => g.controlError (g.describeAs names id ++ " has a predecessor")
  | entered id count =>
    g.controlError (g.describeAs names id ++ " has " ++ toString count ++ " predecessors")
  | cycle => g.controlError "control flow contains a cycle"
  | joined id merges =>
    g.controlError (g.describeAs names id ++ " must be joined by exactly one merge but has "
      ++ toString merges)
  | stopped id slot =>
    g.controlError ("control flow stops at " ++ g.describeAs names id ++ ": `" ++ slot
      ++ "` is unset")
  | unreached id start =>
    g.remark (g.describeAs names id ++ " is unreachable from " ++ (names start).text)
  | condition id guard width =>
    g.structureError ("condition of " ++ g.describeAs names id ++ " must be one bit wide but "
      ++ g.describeAs names guard ++ " has " ++ toString width ++ " bits")
  | branch id target =>
    g.controlError ("branches of " ++ g.describeAs names id ++ " must start with Begin, not "
      ++ g.describeAs names target)
  | mergesNothing id => g.controlError (g.describeAs names id ++ " merges no branches")
  | mergesOther id target =>
    g.controlError (g.describeAs names id ++ " can only merge BranchEnd nodes, not "
      ++ g.describeAs names target)
  | arity id op count =>
    g.structureError (g.describeAs names id ++ " applies `" ++ op.name ++ "` to " ++ toString count
      ++ " arguments but it takes " ++ toString op.arity)
  | choice id type value width =>
    g.structureError (g.describeAs names id ++ " produces " ++ type.text ++ " but case "
      ++ g.describeAs names value ++ " has " ++ toString width ++ " bits")
  | range id value high low =>
    g.structureError (g.describeAs names id ++ " selects bits " ++ toString high ++ ".."
      ++ toString low
      ++ " out of range of " ++ g.describeAs names value)
  | selected id type bits =>
    g.structureError (g.describeAs names id ++ " produces " ++ type.text ++ " from "
      ++ toString bits ++ " bits")
  | extension id width type =>
    g.structureError (g.describeAs names id ++ " extends " ++ toString width
      ++ " bits to " ++ type.text)
  | truncation id width type =>
    g.structureError (g.describeAs names id ++ " truncates " ++ toString width
      ++ " bits to " ++ type.text)

namespace Graph

variable {g g' : Graph} {f : NodeId → NodeId} {id target start condition value choice : NodeId}
  {payload : Payload} {type : ValueType} {errors errors' more more' : List Error}

/-- **Two lists of errors say the same of a graph**, the one in its own words and the other, in
some order, with the nodes under other names. -/
def SaidOf (f : NodeId → NodeId) (g : Graph) (errors errors' : List Error) : Prop :=
  ∃ complaints : List Complaint,
    errors = complaints.map (Complaint.error g fun id => id) ∧
      errors'.Perm (complaints.map (Complaint.error g f))

namespace SaidOf

/-- Where nothing is said of the one graph, nothing is said of the other. -/
theorem nil : SaidOf f g [] [] := ⟨[], rfl, .refl _⟩

/-- One complaint, in two wordings. -/
theorem one (complaint : Complaint) :
    SaidOf f g [complaint.error g fun id => id] [complaint.error g f] :=
  ⟨[complaint], rfl, .refl _⟩

/-- What is said first and what is said afterwards. -/
theorem append (h : SaidOf f g errors errors') (hmore : SaidOf f g more more') :
    SaidOf f g (errors ++ more) (errors' ++ more') := by
  obtain ⟨complaints, rfl, hperm⟩ := h
  obtain ⟨others, rfl, hothers⟩ := hmore
  refine ⟨complaints ++ others, List.map_append.symm, ?_⟩
  rw [List.map_append]
  exact hperm.append hothers

/-- What is said of nodes one by one. -/
theorem flatMap {ids ids' : List NodeId} {said said' : NodeId → List Error}
    (hids : ids'.Perm (ids.map f))
    (h : ∀ id ∈ ids, SaidOf f g (said id) (said' (f id))) :
      SaidOf f g (ids.flatMap said) (ids'.flatMap said') := by
  -- Node by node the complaints stand in the same order; only the order of the nodes may differ.
  have hcarried : SaidOf f g (ids.flatMap said) ((ids.map f).flatMap said') := by
    clear hids
    induction ids with
    | nil => exact nil
    | cons first ids ih =>
      obtain ⟨hfirst, hrest⟩ := List.forall_mem_cons.mp h
      exact hfirst.append (ih hrest)
  obtain ⟨complaints, hsaid, hperm⟩ := hcarried
  exact ⟨complaints, hsaid, (hids.flatMap_right said').trans hperm⟩

/-- One complaint for each of some nodes. -/
theorem map {ids ids' : List NodeId} {said said' : NodeId → Error} (hids : ids'.Perm (ids.map f))
    (h : ∀ id ∈ ids, SaidOf f g [said id] [said' (f id)]) :
      SaidOf f g (ids.map said) (ids'.map said') := by
  rw [List.map_eq_flatMap, List.map_eq_flatMap]
  exact flatMap hids h

end SaidOf

namespace Carries

/-! ## 2. What the checks find -/

/-- Errors and remarks begin with the name of the graph and the position of its owner, and both are
carried along. -/
theorem controlError (h : Carries f g g') : g'.controlError = g.controlError := by
  funext message
  rw [Graph.controlError, Graph.controlError, position, position, h.name, h.owner]

theorem structureError (h : Carries f g g') : g'.structureError = g.structureError := by
  funext message
  rw [Graph.structureError, Graph.structureError, position, position, h.name, h.owner]

theorem remark (h : Carries f g g') : g'.remark = g.remark := by
  funext message
  rw [Graph.remark, Graph.remark, position, position, h.name, h.owner]

/-- Where a member has gone it is described as before, under its new name. -/
theorem describe (h : Carries f g g') (hmember : g.member? id = some payload) :
    g'.describe (f id) = g.describeAs f id := by
  cases hkind : g.kind? id <;> simp [Graph.describe, describeAs, h.kind? hmember, hkind]

/-- A member has the same width where it has gone, so the same widths are wrong. -/
theorem badWidth? (h : Carries f g g') (hmember : g.member? id = some payload)
    (wrong : Nat → Bool) :
    g'.badWidth? (f id) wrong = g.badWidth? id wrong := by
  rw [Graph.badWidth?, Graph.badWidth?, h.widthOf hmember]

/-! ### The rules of single kinds

Each rule is one function of the check and has one lemma here.  The payload of a member says which
rules it has to observe, and what these read are members, since the records agree. -/

variable {found : Payload}

/-- A condition has one bit. -/
theorem conditionErrors (h : Carries f g g') (hmember : g.member? id = some payload)
    (hcondition : g.member? condition = some found) :
    SaidOf f g (g.conditionErrors id condition) (g'.conditionErrors (f id) (f condition)) := by
  rw [Graph.conditionErrors, Graph.conditionErrors, h.badWidth? hcondition, h.structureError,
    h.describe hmember, h.describe hcondition]
  split
  · exact .nil
  · exact .one (.condition id condition _)

/-- A branch that is set starts with a node of its own kind. -/
theorem branchErrors (h : Carries f g g') (hmember : g.member? id = some payload)
    {goal : Option NodeId}
    (hgoal : ∀ target, goal = some target → ∃ found, g.member? target = some found) :
    SaidOf f g (g.branchErrors id goal) (g'.branchErrors (f id) (goal.map f)) := by
  cases goal with
  | none => exact .nil
  | some target =>
    obtain ⟨found, htarget⟩ := hgoal target rfl
    rw [Option.map_some, Graph.branchErrors, Graph.branchErrors, h.kind? htarget, h.controlError,
      h.describe hmember, h.describe htarget]
    split
    · exact .nil
    · exact .one (.branch id target)

/-- A merge has something to merge, and merges ends of branches only. -/
theorem mergeErrors (h : Carries f g g') (hmember : g.member? id = some payload)
    {branchEnds : List NodeId}
    (hends : ∀ target ∈ branchEnds, ∃ found, g.member? target = some found) :
    SaidOf f g (g.mergeErrors id branchEnds) (g'.mergeErrors (f id) (branchEnds.map f)) := by
  rw [Graph.mergeErrors, Graph.mergeErrors, List.isEmpty_map, h.controlError, h.describe hmember]
  refine .append ?_ (.map ?_ fun target htarget => ?_)
  · split
    · exact .one (.mergesNothing id)
    · exact .nil
  -- Whether a target is complained about is a matter of its kind, so the same targets are picked.
  · rw [List.filter_map]
    refine .of_eq (congrArg (List.map f) (List.filter_congr fun target htarget => ?_))
    obtain ⟨found, hfound⟩ := hends target htarget
    rw [Function.comp_apply, h.kind? hfound]
  · obtain ⟨found, hfound⟩ := hends target (List.mem_filter.mp htarget).1
    rw [h.describe hfound]
    exact .one (.mergesOther id target)

/-- Either case of a choice has the width of the choice. -/
theorem caseErrors (h : Carries f g g') (hmember : g.member? id = some payload)
    (hchoice : g.member? choice = some found) :
    SaidOf f g (g.caseErrors id type choice) (g'.caseErrors (f id) type (f choice)) := by
  rw [Graph.caseErrors, Graph.caseErrors, h.badWidth? hchoice, h.structureError, h.describe hmember,
    h.describe hchoice]
  split
  · exact .nil
  · exact .one (.choice id type choice _)

/-- A slice takes bits that the value has, as many as its type says. -/
theorem sliceErrors (h : Carries f g g') (hmember : g.member? id = some payload)
    (hvalue : g.member? value = some found) (high low : Nat) :
    SaidOf f g (g.sliceErrors id value high low type)
      (g'.sliceErrors (f id) (f value) high low type) := by
  rw [Graph.sliceErrors, Graph.sliceErrors, h.badWidth? hvalue, h.structureError,
    h.describe hmember, h.describe hvalue]
  dsimp only
  split
  · exact .one (.range id value high low)
  · split
    · exact .nil
    · exact .one (.selected id type _)

/-- An extension does not lose bits. -/
theorem extensionErrors (h : Carries f g g') (hmember : g.member? id = some payload)
    (hvalue : g.member? value = some found) :
    SaidOf f g (g.extensionErrors id value type) (g'.extensionErrors (f id) (f value) type) := by
  rw [Graph.extensionErrors, Graph.extensionErrors, h.badWidth? hvalue, h.structureError,
    h.describe hmember]
  split
  · exact .nil
  · exact .one (.extension id _ type)

/-- A truncation does not add bits. -/
theorem truncationErrors (h : Carries f g g') (hmember : g.member? id = some payload)
    (hvalue : g.member? value = some found) :
    SaidOf f g (g.truncationErrors id value type) (g'.truncationErrors (f id) (f value) type) := by
  rw [Graph.truncationErrors, Graph.truncationErrors, h.badWidth? hvalue, h.structureError,
    h.describe hmember]
  split
  · exact .nil
  · exact .one (.truncation id _ type)

/-- **Carried along, a member observes the rules of its kind as before.** -/
theorem kindErrors (h : Carries f g g') (hmember : g.member? id = some payload) :
    SaidOf f g (g.kindErrors id) (g'.kindErrors (f id)) := by
  have hedge : ∀ {target}, target ∈ payload.edges → ∃ found, g.member? target = some found :=
    fun htarget => h.kept.member?_of_mem_edges hmember htarget
  have hinput : ∀ target ∈ payload.inputEdges, ∃ found, g.member? target = some found :=
    fun target htarget => h.kept.member?_of_mem_inputEdges hmember htarget
  unfold Graph.kindErrors
  rw [payload?_of_member? hmember, payload?_of_member? (h.member? hmember)]
  -- Only the kinds that have a rule of their own are listed.  Of each the slots that its rule
  -- reads are followed to members.
  cases payload with
  | branch condition trueBranch falseBranch =>
    obtain ⟨found, hcondition⟩ := hinput condition
      (by simp [Payload.inputEdges, Payload.inputSlots, Slot.required])
    refine .append (.append (h.conditionErrors hmember hcondition)
      (h.branchErrors hmember fun target htarget => ?_))
      (h.branchErrors hmember fun target htarget => ?_)
    · exact hedge (by simp [Payload.edges, Payload.slots, Payload.successorSlots,
        Slot.maybe, htarget])
    · exact hedge (by simp [Payload.edges, Payload.slots, Payload.successorSlots,
        Slot.maybe, htarget])
  | merge branchEnds next =>
    rw [Payload.mapEdges_merge]
    exact h.mergeErrors hmember fun target htarget =>
      hinput target (by simp [Payload.inputEdges, Payload.inputSlots, Slot.required, htarget])
  | builtInCall args op type =>
    rw [Payload.mapEdges_builtInCall]
    dsimp only
    rw [List.length_map, h.structureError, h.describe hmember]
    split
    · exact .nil
    · exact .one (.arity id op args.length)
  | select condition trueCase falseCase type =>
    obtain ⟨found, hcondition⟩ := hinput condition (by simp)
    obtain ⟨found, htrue⟩ := hinput trueCase (by simp)
    obtain ⟨found, hfalse⟩ := hinput falseCase (by simp)
    exact ((h.conditionErrors hmember hcondition).append (h.caseErrors hmember htrue)).append
      (h.caseErrors hmember hfalse)
  | slice value high low type =>
    obtain ⟨found, hvalue⟩ := hinput value (Payload.value_mem_inputEdges rfl)
    exact h.sliceErrors hmember hvalue high low
  | zeroExtend value type | signExtend value type =>
    obtain ⟨found, hvalue⟩ := hinput value (Payload.value_mem_inputEdges rfl)
    exact h.extensionErrors hmember hvalue
  | truncate value type =>
    obtain ⟨found, hvalue⟩ := hinput value (Payload.value_mem_inputEdges rfl)
    exact h.truncationErrors hmember hvalue
  | writeReg _ guard _ | writeRegFile _ _ guard _ | writeMem _ _ guard _ _ =>
    cases guard with
    | none => exact .nil
    | some condition =>
      obtain ⟨found, hcondition⟩ := hinput condition
        (by simp [Payload.inputEdges, Payload.inputSlots, Slot.required, Slot.maybe])
      exact h.conditionErrors hmember hcondition
  | _ => exact .nil

/-- The rules of the kinds are checked member by member. -/
theorem checkKinds (h : Carries f g g') : SaidOf f g g.checkKinds.errors g'.checkKinds.errors := by
  refine .flatMap (.of_eq h.members) fun id hid => ?_
  obtain ⟨payload, hmember⟩ := mem_members_iff.mp hid
  exact h.kindErrors hmember

/-! ### The terminal node -/

/-- **The same is wrong with the terminal nodes**: their number if nobody owns the graph, and
otherwise their kinds and how many have the right one. -/
theorem checkTerminal (h : Carries f g g') :
    SaidOf f g g.checkTerminal.errors g'.checkTerminal.errors := by
  have hends : g'.ends = g.ends.map f := h.membersOf _
  have hkind : ∀ id ∈ g.ends, g'.kind? (f id) = g.kind? id ∧
      g'.describe (f id) = g.describeAs f id := by
    intro id hid
    obtain ⟨payload, hmember, -⟩ := mem_membersOf_iff.mp hid
    exact ⟨h.kind? hmember, h.describe hmember⟩
  unfold Graph.checkTerminal
  rw [h.owner, h.controlError, hends]
  cases g.owner with
  | none =>
    dsimp only
    rw [List.length_map]
    split
    · exact .one .noTerminal
    · exact .nil
    · exact .one (.terminals _)
  | some owner =>
    dsimp only [Diagnostics.ofErrors]
    -- Terminal nodes are picked by kind, before and after.
    have hfilter : ∀ fits : Option Kind → Bool, (g.ends.map f).filter (fun id => fits (g'.kind? id))
        = (g.ends.filter fun id => fits (g.kind? id)).map f := by
      intro fits
      rw [List.filter_map]
      refine congrArg (List.map f) (List.filter_congr fun id hid => ?_)
      rw [Function.comp_apply, (hkind id hid).1]
    rw [hfilter fun kind => !decide (kind = some owner.role.terminal),
      hfilter fun kind => decide (kind = some owner.role.terminal), List.length_map]
    refine .append (.map (.refl _) fun id hid => ?_) ?_
    · rw [(hkind id (List.mem_filter.mp hid).1).2]
      exact .one (.misplaced id owner.role)
    · split
      · exact .one (.missing owner.role.terminal)
      · exact .nil
      · exact .one (.tooMany _ owner.role.terminal)

/-! ### The control flow -/

/-- Control flow goes through members. -/
theorem exists_member?_of_mem_vertices (h : Carries f g g')
    (hvertex : id ∈ g.controlFlow.vertices) :
    ∃ payload, g.member? id = some payload := by
  obtain ⟨payload, hmember, -⟩ :=
    mem_membersOf_iff.mp (h.kept.mem_vertices_controlFlow_iff.mp hvertex)
  exact ⟨payload, hmember⟩

/-- The same is wrong with the way into a node, because it has as many predecessors as before. -/
theorem entryErrors (h : Carries f g g') (hvertex : id ∈ g.controlFlow.vertices) :
    SaidOf f g ((g.entryComplaint? g.controlFlow id).toList.map g.controlError)
      ((g'.entryComplaint? g'.controlFlow (f id)).toList.map g.controlError) := by
  obtain ⟨payload, hmember⟩ := h.exists_member?_of_mem_vertices hvertex
  rw [entryComplaint?, entryComplaint?, h.controlFlow.length_previous hvertex, h.kind? hmember,
    h.describe hmember]
  split
  · exact .nil
  · split
    · exact .one (.enteredStart id)
    · exact .nil
  · split
    · exact .one (.entered id _)
    · exact .nil

/-- The same is wrong with the ways out of it: it has as many successors, and the slots that are
unset are the same. -/
theorem exitErrors (h : Carries f g g') (hvertex : id ∈ g.controlFlow.vertices) :
    SaidOf f g ((g.exitComplaints g.controlFlow id).map g.controlError)
      ((g'.exitComplaints g'.controlFlow (f id)).map g.controlError) := by
  obtain ⟨payload, hmember⟩ := h.exists_member?_of_mem_vertices hvertex
  rw [exitComplaints, exitComplaints, payload?_of_member? hmember,
    payload?_of_member? (h.member? hmember), h.controlFlow.length_next hvertex, h.describe hmember]
  dsimp only
  rw [Payload.kind_mapEdges, Payload.successorSlots_mapEdges]
  split
  · exact .nil
  · split
    · split
      · exact .nil
      · exact .one (.joined id _)
    -- Control that stops is complained about slot by slot, in the order of the slots, so the
    -- complaints can be named.
    · refine ⟨(payload.successorSlots.filter fun slot => slot.target.isNone).map fun slot =>
        .stopped id slot.name, ?_, .of_eq ?_⟩
      · rw [List.map_map, List.map_map]
        rfl
      · rw [List.filter_map, List.map_map, List.map_map, List.map_map]
        simp only [Function.comp_def, Slot.through_target, Option.isNone_map]
        rfl

/-- **The same is wrong with the control flow.**  Control flow is carried along as a directed graph
(`Digraph.Carried`), so it is cyclic where it was, and a search from the start reaches what it did.
-/
theorem checkControlFlow (h : Carries f g g') :
    SaidOf f g g.checkControlFlow.errors g'.checkControlFlow.errors ∧
      SaidOf f g g.checkControlFlow.warnings g'.checkControlFlow.warnings := by
  unfold Graph.checkControlFlow
  rw [h.membersOf]
  cases hstarts : g.membersOf (.exactly .start) with
  | nil => exact ⟨.nil, .nil⟩
  | cons start others =>
    have hstart : start ∈ g.controlFlow.vertices := by
      obtain ⟨payload, hmember, hkind⟩ := mem_membersOf_iff.mp (hstarts ▸ List.mem_cons_self)
      have hkind : .start = payload.kind := of_decide_eq_true hkind
      exact h.kept.mem_vertices_controlFlow_iff.mpr
        (mem_membersOf_iff.mpr ⟨payload, hmember, by rw [← hkind]; rfl⟩)
    have hreached := h.controlFlow.perm_depthFirst hstart
    rw [List.map_cons]
    dsimp only
    rw [h.controlError, h.remark, h.controlFlow.isCyclic, List.isEmpty_map, List.length_map]
    simp only [List.map_append]
    -- The number of start nodes, the ways in, a cycle, the ways out; and as warnings the nodes
    -- that are not reached.
    refine ⟨.append (.append (.append ?_ ?_) ?_) ?_, .map ?_ fun id hid => ?_⟩
    · split
      · exact .nil
      · exact .one (.starts _)
    · rw [List.filterMap_eq_flatMap_toList, List.filterMap_eq_flatMap_toList, List.map_flatMap,
        List.map_flatMap]
      exact .flatMap h.controlFlow.vertices fun id hid => h.entryErrors hid
    · split
      · exact .one .cycle
      · exact .nil
    · rw [List.map_flatMap, List.map_flatMap]
      refine .flatMap hreached fun id hid => h.exitErrors ?_
      exact Digraph.Closed.mem_of_path h.controlFlow.closed hstart
        (Digraph.mem_depthFirst_iff.mp hid)
    -- What is not reached is listed by place, and places change: only up to order is it the same
    -- list.
    · refine (List.mergeSort_perm _ _).trans (((h.controlFlow.vertices.filter _).trans ?_).trans
        ((List.mergeSort_perm _ _).map f).symm)
      rw [List.filter_map]
      refine .of_eq (congrArg (List.map f) (List.filter_congr fun id hid => ?_))
      rw [Function.comp_apply, h.controlFlow.contains_depthFirst hstart hid]
    · have hvertex := (List.mem_filter.mp ((List.mergeSort_perm _ _).mem_iff.mp hid)).1
      obtain ⟨payload, hmember⟩ := h.exists_member?_of_mem_vertices hvertex
      rw [h.describe hmember]
      exact .one (.unreached id start)

/-! ### All checks -/

/-- Terminal nodes are never warned about. -/
theorem checkTerminal_warnings (g : Graph) : g.checkTerminal.warnings = [] := by
  unfold Graph.checkTerminal
  split
  · split <;> rfl
  · rfl

/-- **A graph that is carried along is found to have the same faults.** -/
theorem verify (h : Carries f g g') :
    SaidOf f g g.verify.errors g'.verify.errors ∧
    SaidOf f g g.verify.warnings g'.verify.warnings := by
  obtain ⟨herrors, hwarnings⟩ := h.checkControlFlow
  rw [Graph.verify, Graph.verify, checkEdges_of_kept h.kept, checkEdges_of_kept h.carried,
    checkUnique_of_kept h.kept, checkUnique_of_kept h.carried]
  have hnone : SaidOf f g g.checkTerminal.warnings g'.checkTerminal.warnings := by
    rw [checkTerminal_warnings, checkTerminal_warnings]
    exact .nil
  exact ⟨(h.checkTerminal.append herrors).append h.checkKinds, (hnone.append hwarnings).append .nil⟩

/-- The same holds of the checks that passes have to leave clean. -/
theorem checkConsistency (h : Carries f g g') :
    SaidOf f g g.checkConsistency.errors g'.checkConsistency.errors ∧
      SaidOf f g g.checkConsistency.warnings g'.checkConsistency.warnings := by
  rw [Graph.checkConsistency, Graph.checkConsistency, checkEdges_of_kept h.kept,
    checkEdges_of_kept h.carried, checkUnique_of_kept h.kept, checkUnique_of_kept h.carried]
  exact ⟨h.checkKinds, .nil⟩

end Carries

/-! ## 3. Closing up -/

end Graph

end BehaviorGraph
