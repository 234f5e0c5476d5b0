/-
# Duplicating what a node reads

A copying walk duplicates a member with everything it reads, up to the nodes that have an entry in
the table beforehand (`Graph.Behind`).  Two things can come of it, whatever the kinds of these
nodes and however they share what they read (`Copying.walk_duplicates`): **each of them has one
copy of its own, behind those of what it reads, or one of them reads itself**, at whatever
distance, and the walk stops there with that fault.

A node that was entered is never taken off the list of those entered.  What was entered and has no
copy yet is still to be left, so it leads to every node that is entered before
(`Duplicating.descends`), and to be entered again it has to lead to itself.

The walk may copy within one graph or from one graph into another.  The two differ only in the
graph the payloads are read from, the *view*, and all that is asked of it is that the members that
are copied are seen as they were in the beginning (`Shows`).
-/
import BehaviorGraph.Proofs.Closures

namespace BehaviorGraph

/-! ## 1. Copies of payloads -/

namespace Payload

variable {payload : Payload} {f f' : NodeId → NodeId}

/-- **The payload of a copy**: what it reads goes through the function, and it has no successors. -/
def duplicate (f : NodeId → NodeId) (payload : Payload) : Payload :=
  (payload.assignInputs (payload.inputs.map (Option.map f))).clearSuccessors

@[simp] theorem kind_duplicate (f : NodeId → NodeId) (payload : Payload) :
    (payload.duplicate f).kind = payload.kind := by
  rw [duplicate, clearSuccessors, kind_assignSuccessors, kind_assignInputs]

/-- The inputs of a copy go through the function, slot by slot. -/
theorem inputSlots_duplicate (f : NodeId → NodeId) (payload : Payload) :
    (payload.duplicate f).inputSlots = payload.inputSlots.map (Slot.through f) := by
  rw [duplicate, clearSuccessors, inputSlots_assignSuccessors, inputSlots_assignInputs]
  exact mapIdx_assign_map (legal_of_mem_inputSlots payload) f

/-- The same of the targets, of which some may be missing. -/
theorem inputs_duplicate (f : NodeId → NodeId) (payload : Payload) :
    (payload.duplicate f).inputs = payload.inputs.map (Option.map f) := by
  simp [inputs, inputSlots_duplicate, Function.comp_def]

/-- And of those that are there. -/
theorem inputEdges_duplicate (f : NodeId → NodeId) (payload : Payload) :
    (payload.duplicate f).inputEdges = payload.inputEdges.map f := by
  rw [inputEdges, inputEdges, inputSlots_duplicate, List.filterMap_map, List.map_filterMap]
  rfl

/-- The successor slots of a copy are empty, and those are the slots that may be. -/
theorem successorSlot_duplicate {slot : Slot} (h : slot ∈ (payload.duplicate f).successorSlots) :
    slot.target = none ∧ slot.optional = true := by
  cases payload <;>
    simp [duplicate, clearSuccessors, assignInputs, assignSuccessors, successors,
      successorSlots, Slot.maybe, assignOptional] at h <;> grind

/-- A copy has as many successor slots, all of them empty. -/
theorem successors_duplicate (f : NodeId → NodeId) (payload : Payload) :
    (payload.duplicate f).successors = payload.successors.map fun _ => none := by
  cases payload <;> rfl

/-- So its only edges are those to what it reads. -/
theorem edges_duplicate (f : NodeId → NodeId) (payload : Payload) :
    (payload.duplicate f).edges = payload.inputEdges.map f := by
  have hnone : (payload.duplicate f).successorSlots.filterMap Slot.target = [] :=
    List.filterMap_eq_nil_iff.mpr fun slot hslot => (successorSlot_duplicate hslot).1
  rw [edges, slots, List.filterMap_append, hnone, List.append_nil]
  exact inputEdges_duplicate f payload

/-- A unique payload is its own copy, having no edges. -/
theorem duplicate_of_isUnique (h : payload.kind.isUnique = true) (f : NodeId → NodeId) :
    payload.duplicate f = payload := by
  rw [duplicate, clearSuccessors, assignInputs_of_isUnique h, assignSuccessors_of_isUnique h]

/-- Only what is read counts. -/
theorem duplicate_congr (h : ∀ target ∈ payload.inputEdges, f target = f' target) :
    payload.duplicate f = payload.duplicate f' := by
  have hinputs : payload.inputs.map (Option.map f) = payload.inputs.map (Option.map f') := by
    refine List.map_congr_left fun target htarget => ?_
    cases target with
    | none => rfl
    | some target => exact congrArg some (h target (mem_inputs_iff.mp htarget))
  rw [duplicate, duplicate, hinputs]

/-- A copy whose edges are sent through a function is the copy that goes through both. -/
theorem mapEdges_duplicate (f f' : NodeId → NodeId) (payload : Payload) :
    (payload.duplicate f).mapEdges f' = payload.duplicate fun target => f' (f target) := by
  cases payload <;>
    simp [duplicate, clearSuccessors, mapEdges, assignInputs, assignSuccessors, inputs,
      successors, inputSlots, successorSlots, Slot.required, Slot.maybe, assignRequired,
        assignOptional, Function.comp_def,
      assignList_map, assignList_map_some]

/-- The copy of a copy is the copy that goes through both functions. -/
theorem duplicate_duplicate (f f' : NodeId → NodeId) (payload : Payload) :
    (payload.duplicate f).duplicate f' = payload.duplicate fun target => f' (f target) := by
  cases payload <;>
    simp [duplicate, clearSuccessors, assignInputs, assignSuccessors, inputs,
      successors, inputSlots, successorSlots, Slot.required, Slot.maybe, assignRequired,
        assignOptional, Function.comp_def,
      assignList_map, assignList_map_some]

/-- **What a walk writes down is a copy**, if all that is read has an entry. -/
theorem copy_eq_duplicate {copies : Table NodeId NodeId}
    (h : ∀ target ∈ payload.inputEdges, ∃ place, copies.get? target = some place) :
    (payload.assignInputs (payload.inputs.map fun target =>
      target.bind copies.get?)).clearSuccessors
      = payload.duplicate fun target => (copies.get? target).getD target := by
  have hinputs : (payload.inputs.map fun target => target.bind copies.get?)
      = payload.inputs.map (Option.map fun target => (copies.get? target).getD target) := by
    refine List.map_congr_left fun target htarget => ?_
    cases target with
    | none => rfl
    | some target =>
      obtain ⟨place, hplace⟩ := h target (mem_inputs_iff.mp htarget)
      simp [hplace]
  rw [hinputs, duplicate]

end Payload

namespace Graph

variable {source g g' : Graph} {table : Table NodeId NodeId} {id root target place : NodeId}
  {payload : Payload} {node : Node}

/-! ## 2. What is to be copied -/

/-- One member reads another node, and has no entry in the table. -/
def Follows (source : Graph) (table : Table NodeId NodeId) (user target : NodeId) : Prop :=
  source.ReadsFrom user target ∧ table.get? user = none

/-- **What is to be copied with a node**: what is read from there, at whatever distance, without
going through a node that has an entry. -/
def Behind (source : Graph) (table : Table NodeId NodeId) (root id : NodeId) : Prop :=
  table.get? id = none ∧ Relation.ReflTransGen (source.Follows table) root id

/-- A node that is to be copied reads itself, at whatever distance. -/
def Entangled (source : Graph) (table : Table NodeId NodeId) (root id : NodeId) : Prop :=
  source.Behind table root id ∧ Relation.TransGen (source.Follows table) id id

/-- If anything is to be copied with the root, the root is. -/
theorem Behind.head (h : source.Behind table root id) : table.get? root = none := by
  rcases Relation.ReflTransGen.cases_head h.2 with rfl | ⟨next, hfollows, -⟩
  · exact h.1
  · exact hfollows.2

/-- What is read from a member is a member. -/
theorem Kept.member?_of_follows (h : source.Kept) (hmember : source.member? root = some payload)
    (hpath : Relation.ReflTransGen (source.Follows table) root id) :
      ∃ payload, source.member? id = some payload := by
  -- The last node of a path is the first one, or the one before it reads it.
  rcases Relation.ReflTransGen.cases_tail hpath with rfl | ⟨before, -, hfollows⟩
  · exact ⟨payload, hmember⟩
  · obtain ⟨⟨found, hfound, htarget⟩, -⟩ := hfollows
    exact h.member?_of_mem_inputEdges hfound htarget

namespace Copying

variable {c c' : Copying} {tasks rest : List (Task NodeId)} {bound : Nat}

/-! ## 3. How far a walk has got -/

/-- **`place` has the copy of a node that is to be copied**, behind the copies of what the node
reads. -/
structure HasCopy (source g : Graph) (table : Table NodeId NodeId) (root : NodeId) (c : Copying)
    (id place : NodeId) : Prop where
  behind : source.Behind table root id
  fresh : g.nodes.size ≤ place.index
  copy : ∃ payload, source.member? id = some payload ∧
    c.transfer.target.node? place = some { payload := payload.duplicate c.copyOf } ∧
    ∀ target ∈ payload.inputEdges, ∃ place', c.transfer.copies.get? target = some place' ∧
      (table.get? target = none → place'.index < place.index)

/-- **Every entry that was not given beforehand is the place of a copy, and every new place the
entry of one node.** -/
structure Duplicated (source g : Graph) (table : Table NodeId NodeId) (root : NodeId)
    (c : Copying) : Prop where
  size : g.nodes.size ≤ c.transfer.target.nodes.size
  old : ∀ {id}, id.index < g.nodes.size → c.transfer.target.node? id = g.node? id
  given : ∀ {id place}, table.get? id = some place → c.transfer.copies.get? id = some place
  copied : ∀ {id place}, c.transfer.copies.get? id = some place → table.get? id = none →
    HasCopy source g table root c id place
  covered : ∀ {place}, g.nodes.size ≤ place.index → place.index < c.transfer.target.nodes.size →
    ∃ id, c.transfer.copies.get? id = some place ∧ table.get? id = none
  distinct : ∀ {id id' place}, c.transfer.copies.get? id = some place → table.get? id = none →
    c.transfer.copies.get? id' = some place → table.get? id' = none → id = id'

/-- A copy is in the arena. -/
theorem HasCopy.index_lt (h : HasCopy source g table root c id place) :
    place.index < c.transfer.target.nodes.size := by
  obtain ⟨payload, -, hnode, -⟩ := h.copy
  exact lt_size_of_node? hnode

/-- A copy stays one while entries are added. -/
theorem HasCopy.later (h : HasCopy source g table root c id place) (hkeeps : c.Keeps c')
    (hnodes : c'.transfer.target.node? place = c.transfer.target.node? place) :
    HasCopy source g table root c' id place := by
  obtain ⟨payload, hmember, hnode, hreads⟩ := h.copy
  refine ⟨h.behind, h.fresh, payload, hmember, ?_, fun target htarget => ?_⟩
  · rw [hnodes, hnode, Payload.duplicate_congr fun target htarget => ?_]
    obtain ⟨place', hplace', -⟩ := hreads target htarget
    rw [copyOf_of_get? hplace', copyOf_of_get? (hkeeps hplace')]
  · obtain ⟨place', hplace', hbefore⟩ := hreads target htarget
    exact ⟨place', hkeeps hplace', hbefore⟩

/-- In the beginning there are no entries but those given, and no new places. -/
theorem Duplicated.start (source g : Graph) (table : Table NodeId NodeId) (root : NodeId) :
    Duplicated source g table root ⟨⟨g, table⟩, []⟩ where
  size := Nat.le_refl _
  old := fun _ => rfl
  given := fun hgiven => hgiven
  copied := fun hplace hnone => absurd (hplace.symm.trans hnone) (by simp)
  covered := fun hle hlt => absurd hle (Nat.not_le.mpr hlt)
  distinct := fun hplace hnone => absurd (hplace.symm.trans hnone) (by simp)

namespace Duplicated

/-- Who has no entry was given none. -/
theorem table_eq_none (h : Duplicated source g table root c)
    (hnone : c.transfer.copies.get? id = none) :
    table.get? id = none := by
  cases hgiven : table.get? id with
  | none => rfl
  | some place => exact absurd ((h.given hgiven).symm.trans hnone) (by simp)

/-- **Leaving a node adds its copy**, and so a place of its own. -/
theorem leave (h : Duplicated source g table root c) (hmember : source.member? id = some payload)
    (hpath : Relation.ReflTransGen (source.Follows table) root id)
    (hnone : c.transfer.copies.get? id = none)
    (hreads : ∀ target ∈ payload.inputEdges, ∃ place, c.transfer.copies.get? target = some place) :
    Duplicated source g table root (c.leave id payload) := by
  have hkeeps : c.Keeps (c.leave id payload) := keeps_leave hnone payload
  have hsize := h.size
  have hcopy : (c.leave id payload).transfer.target
      = c.transfer.target.push (payload.duplicate c.copyOf) :=
    congrArg c.transfer.target.push (Payload.copy_eq_duplicate hreads)
  have hnodes : ∀ {place : NodeId}, place.index < c.transfer.target.nodes.size →
      (c.leave id payload).transfer.target.node? place = c.transfer.target.node? place := by
    intro place hlt
    rw [hcopy, node?_push, if_neg (by omega)]
  have htable := h.table_eq_none hnone
  -- An entry afterwards is the new one, or was there before.
  have hentries : ∀ {other place}, (c.leave id payload).transfer.copies.get? other = some place →
      (other = id ∧ place = ⟨c.transfer.target.nodes.size⟩) ∨
        c.transfer.copies.get? other = some place := by
    intro other place hplace
    rw [get?_leave] at hplace
    split at hplace
    · exact .inl ⟨‹_›, (Option.some.inj hplace).symm⟩
    · exact .inr hplace
  -- The new entry: the copy lies at the end of the arena, behind the copies of what it reads.
  have hself :
      HasCopy source g table root (c.leave id payload) id ⟨c.transfer.target.nodes.size⟩ := by
    refine ⟨⟨htable, hpath⟩, hsize, payload, hmember, ?_, fun target htarget => ?_⟩
    · rw [hcopy, node?_push, if_pos rfl, Payload.duplicate_congr fun target htarget => ?_]
      obtain ⟨place, hplace⟩ := hreads target htarget
      rw [copyOf_of_get? hplace, copyOf_of_get? (hkeeps hplace)]
    · obtain ⟨place, hplace⟩ := hreads target htarget
      exact ⟨place, hkeeps hplace, fun hfree => (h.copied hplace hfree).index_lt⟩
  refine ⟨?_, fun hlt => ?_, fun hgiven => hkeeps (h.given hgiven), ?_, ?_, ?_⟩
  · rw [hcopy, Graph.push, Array.size_push]
    omega
  · rw [hnodes (by omega), h.old hlt]
  · intro other place hplace hother
    rcases hentries hplace with ⟨rfl, rfl⟩ | hbefore
    · exact hself
    · exact (h.copied hbefore hother).later hkeeps (hnodes (h.copied hbefore hother).index_lt)
  · intro place hle hlt
    rw [hcopy, Graph.push, Array.size_push] at hlt
    by_cases hlast : place.index = c.transfer.target.nodes.size
    · exact ⟨id, by rw [get?_leave, if_pos rfl, ← hlast], htable⟩
    · obtain ⟨other, hother, hfree⟩ := h.covered hle (by omega)
      exact ⟨other, hkeeps hother, hfree⟩
  · intro other other' place hplace hother hplace' hother'
    rcases hentries hplace with ⟨rfl, rfl⟩ | hbefore
    · rcases hentries hplace' with ⟨rfl, -⟩ | hbefore'
      · rfl
      · exact absurd (h.copied hbefore' hother').index_lt (Nat.lt_irrefl _)
    · rcases hentries hplace' with ⟨rfl, rfl⟩ | hbefore'
      · exact absurd (h.copied hbefore hother).index_lt (Nat.lt_irrefl _)
      · exact h.distinct hbefore hother hbefore' hother'

/-- Places fall along what is read. -/
theorem index_lt_of_follows (h : Duplicated source g table root c) {user : NodeId} {place' : NodeId}
    (hfollows : source.Follows table user target) (huser : c.transfer.copies.get? user = some place)
    (htarget : c.transfer.copies.get? target = some place') (hfree : table.get? target = none) :
    place'.index < place.index := by
  obtain ⟨⟨payload, hmember, hin⟩, hnone⟩ := hfollows
  obtain ⟨found, hfound, -, hreads⟩ := (h.copied huser hnone).copy
  obtain rfl := Option.some.inj (hmember.symm.trans hfound)
  obtain ⟨place'', hplace'', hlt⟩ := hreads target hin
  obtain rfl := Option.some.inj (htarget.symm.trans hplace'')
  exact hlt hfree

/-- **With a node everything it leads to has an entry.** -/
theorem exists_entry (h : Duplicated source g table root c)
    (hroot : ∃ place, c.transfer.copies.get? root = some place)
    (hpath : Relation.ReflTransGen (source.Follows table) root id) :
    ∃ place, c.transfer.copies.get? id = some place := by
  induction hpath with
  | refl => exact hroot
  | tail _ hfollows ih =>
    obtain ⟨place, hplace⟩ := ih
    obtain ⟨⟨payload, hmember, hin⟩, hnone⟩ := hfollows
    obtain ⟨found, hfound, -, hreads⟩ := (h.copied hplace hnone).copy
    obtain rfl := Option.some.inj (hmember.symm.trans hfound)
    obtain ⟨place', hplace', -⟩ := hreads _ hin
    exact ⟨place', hplace'⟩

/-- **Where everything was copied nothing reads itself**, since places fall. -/
theorem not_entangled (h : Duplicated source g table root c)
    (hroot : ∃ place, c.transfer.copies.get? root = some place) :
      ¬ source.Entangled table root id := by
  rintro ⟨⟨hfree, hpath⟩, hcycle⟩
  have hfalls : ∀ {target}, Relation.TransGen (source.Follows table) id target →
    table.get? target = none →
      (c.copyOf target).index < (c.copyOf id).index := by
    intro target hto
    induction hto with
    | single hfollows =>
      intro hnone
      obtain ⟨place, hplace⟩ := h.exists_entry hroot hpath
      obtain ⟨place', hplace'⟩ := h.exists_entry hroot (hpath.tail hfollows)
      rw [copyOf_of_get? hplace, copyOf_of_get? hplace']
      exact h.index_lt_of_follows hfollows hplace hplace' hnone
    | @tail between target hbetween hfollows ih =>
      intro hnone
      have hreach := hpath.trans hbetween.to_reflTransGen
      obtain ⟨place, hplace⟩ := h.exists_entry hroot hreach
      obtain ⟨place', hplace'⟩ := h.exists_entry hroot (hreach.tail hfollows)
      have hlt := ih hfollows.2
      have hlt' := h.index_lt_of_follows hfollows hplace hplace' hnone
      rw [copyOf_of_get? hplace] at hlt
      rw [copyOf_of_get? hplace']
      omega
  exact Nat.lt_irrefl _ (hfalls hcycle hfree)

end Duplicated

/-! ## 4. The pending steps -/

/-- **What a node that is still to be left reads has an entry, or gets one before.**  `soon` has
the nodes of the steps in front. -/
def Supplied (source : Graph) (c : Copying) : List NodeId → List (Task NodeId) → Prop
  | _, [] => True
  | soon, .enter id :: rest => Supplied source c (id :: soon) rest
  | soon, .leave id :: rest =>
    (∀ target, source.ReadsFrom id target → (∃ place, c.transfer.copies.get? target = some place) ∨
      target ∈ soon) ∧
      Supplied source c (id :: soon) rest

theorem Supplied.mono {soon soon' : List NodeId} (h : c.Supplied source soon tasks)
    (hkeeps : c.Keeps c')
    (hsoon : ∀ id ∈ soon, (∃ place, c'.transfer.copies.get? id = some place) ∨ id ∈ soon') :
    c'.Supplied source soon' tasks := by
  induction tasks generalizing soon soon' with
  | nil => trivial
  | cons task rest ih =>
    have hcons : ∀ id, ∀ other ∈ id :: soon,
        (∃ place, c'.transfer.copies.get? other = some place) ∨ other ∈ id :: soon' := by
      intro id other hother
      rcases List.mem_cons.mp hother with rfl | hother
      · exact .inr List.mem_cons_self
      · exact (hsoon other hother).imp_right (List.mem_cons_of_mem id)
    cases task with
    | enter id => exact ih h (hcons id)
    | leave id =>
      refine ⟨fun target hreads => ?_, ih h.2 (hcons id)⟩
      rcases h.1 target hreads with ⟨place, hplace⟩ | hin
      · exact .inl ⟨place, hkeeps hplace⟩
      · exact hsoon target hin

theorem supplied_append_enter (targets soon : List NodeId) (rest : List (Task NodeId)) :
    c.Supplied source soon (targets.map .enter ++ rest) ↔
      c.Supplied source (targets.reverse ++ soon) rest := by
  induction targets generalizing soon with
  | nil => rfl
  | cons target targets ih =>
    rw [List.map_cons, List.cons_append, List.reverse_cons, List.append_assoc]
    exact ih (target :: soon)

/-- **The invariant of a copying walk.** -/
structure Duplicating (source g : Graph) (table : Table NodeId NodeId) (root : NodeId) (bound : Nat)
    (tasks : List (Task NodeId)) (c : Copying) : Prop where
  done : Duplicated source g table root c
  /-- Every step is about a node that is read from the first one. -/
  path : ∀ task ∈ tasks, Relation.ReflTransGen (source.Follows table) root (Attachment.subject task)
  supplied : c.Supplied source [] tasks
  /-- The nodes that are still to be left were entered and have no entry. -/
  leaves : ∀ id ∈ Attachment.leaves tasks, id ∈ c.entered ∧ c.transfer.copies.get? id = none
  nodup : (Attachment.leaves tasks).Nodup
  /-- What was entered has an entry or is still to be left. -/
  entered : ∀ id ∈ c.entered, (∃ payload, source.member? id = some payload) ∧
    (c.transfer.copies.get? id = none → id ∈ Attachment.leaves tasks)
  once : c.entered.Nodup
  /-- Every node that is still to be left leads to the nodes of the steps in front. -/
  descends : tasks.Pairwise fun task later => ∀ id, later = .leave id →
    Relation.TransGen (source.Follows table) id (Attachment.subject task)
  /-- The first node has an entry or will get one. -/
  due : (∃ place, c.transfer.copies.get? root = some place) ∨ root ∈ tasks.map Attachment.subject
  bound : source.nodes.size ≤ bound + c.entered.length

namespace Duplicating

/-- In the beginning the root is to be entered, and that is all. -/
theorem start (source g : Graph) (table : Table NodeId NodeId) (root : NodeId)
    (hbound : source.nodes.size ≤ bound) :
    Duplicating source g table root bound [.enter root] ⟨⟨g, table⟩, []⟩ where
  done := .start source g table root
  path := by
    intro task htask
    rw [List.mem_singleton.mp htask]
    exact .refl
  supplied := trivial
  leaves := fun id hid => absurd hid List.not_mem_nil
  nodup := List.nodup_nil
  entered := fun id hid => absurd hid List.not_mem_nil
  once := List.nodup_nil
  descends := List.pairwise_singleton _ _
  due := .inr (by simp [Attachment.subject])
  bound := by simpa using hbound

/-- A node that has an entry is passed over: all the walk was to do about it was to give it one. -/
theorem skip (h : Duplicating source g table root bound (.enter id :: rest) c)
    (hcopied : c.transfer.copies.get? id = some place) :
      Duplicating source g table root bound rest c where
  done := h.done
  path := fun task htask => h.path task (List.mem_cons_of_mem _ htask)
  supplied := by
    have hsupplied : c.Supplied source [id] rest := h.supplied
    refine hsupplied.mono (fun hplace => hplace) fun other hother => ?_
    rw [List.mem_singleton.mp hother]
    exact .inl ⟨place, hcopied⟩
  leaves := h.leaves
  nodup := h.nodup
  entered := h.entered
  once := h.once
  descends := h.descends.tail
  due := by
    rcases h.due with hdone | hin
    · exact .inl hdone
    · rcases List.mem_cons.mp hin with rfl | hin
      · exact .inl ⟨place, hcopied⟩
      · exact .inr hin
  bound := h.bound

/-- While there is a node to enter, not all nodes were. -/
theorem length_lt (h : Duplicating source g table root bound tasks c)
    (hmember : source.member? id = some payload)
    (hfresh : id ∉ c.entered) : c.entered.length < source.nodes.size := by
  have hnodup : (id :: c.entered).Nodup := List.nodup_cons.mpr ⟨hfresh, h.once⟩
  -- The nodes entered are members, none of them twice, and here is one more.
  have hsub : id :: c.entered ⊆ source.ids := by
    intro other hother
    rcases List.mem_cons.mp hother with rfl | hother
    · exact mem_ids_iff.mpr (index_lt_size hmember)
    · obtain ⟨⟨found, hfound⟩, -⟩ := h.entered other hother
      exact mem_ids_iff.mpr (index_lt_size hfound)
  have hlength := (List.subperm_of_subset hnodup hsub).length_le
  rwa [List.length_cons, ids, List.length_map, List.length_range] at hlength

/-- **Entering a node** puts what it reads in front of leaving it.  Being read from it, these nodes
are read from the root as well; and the step of the bound that this takes is the node entered. -/
theorem enter (h : Duplicating source g table root (bound + 1) (.enter id :: rest) c)
    (hmember : source.member? id = some payload) (hnone : c.transfer.copies.get? id = none)
    (hfresh : id ∉ c.entered) :
    Duplicating source g table root bound (payload.inputEdges.map .enter ++ .leave id :: rest)
      { c with entered := id :: c.entered } := by
  have hfree := h.done.table_eq_none hnone
  have hfollows : ∀ target ∈ payload.inputEdges, source.Follows table id target :=
    fun target htarget => ⟨⟨payload, hmember, htarget⟩, hfree⟩
  have hleaves : Attachment.leaves (payload.inputEdges.map .enter ++ .leave id :: rest)
      = id :: Attachment.leaves rest := Attachment.leaves_append_enter _ _
  obtain ⟨hfirst, hrest⟩ := List.pairwise_cons.mp h.descends
  have hid := h.path _ List.mem_cons_self
  exact {
    done := ⟨h.done.size, h.done.old, h.done.given,
      fun hplace hother => (h.done.copied hplace hother).later (fun hplace => hplace) rfl,
        h.done.covered,
      h.done.distinct⟩
    path := by
      intro task htask
      rcases List.mem_append.mp htask with hin | hin
      · obtain ⟨target, htarget, rfl⟩ := List.mem_map.mp hin
        exact hid.tail (hfollows target htarget)
      · rcases List.mem_cons.mp hin with rfl | hin
        · exact hid
        · exact h.path task (List.mem_cons_of_mem _ hin)
    supplied := by
      rw [supplied_append_enter, List.append_nil]
      constructor
      · rintro target ⟨found, hfound, htarget⟩
        obtain rfl := Option.some.inj (hmember.symm.trans hfound)
        exact .inr (List.mem_reverse.mpr htarget)
      · have hsupplied : c.Supplied source [id] rest := h.supplied
        refine hsupplied.mono (fun hplace => hplace) fun other hother => ?_
        rw [List.mem_singleton.mp hother]
        exact .inr List.mem_cons_self
    leaves := by
      intro other hother
      rw [hleaves] at hother
      rcases List.mem_cons.mp hother with rfl | hother
      · exact ⟨List.mem_cons_self, hnone⟩
      · exact ⟨List.mem_cons_of_mem _ (h.leaves other hother).1, (h.leaves other hother).2⟩
    nodup := by
      rw [hleaves]
      exact List.nodup_cons.mpr ⟨fun hin => hfresh (h.leaves id hin).1, h.nodup⟩
    entered := by
      intro other hother
      rw [hleaves]
      rcases List.mem_cons.mp hother with rfl | hother
      · exact ⟨⟨payload, hmember⟩, fun _ => List.mem_cons_self⟩
      · exact ⟨(h.entered other hother).1, fun hnone =>
          List.mem_cons_of_mem _ ((h.entered other hother).2 hnone)⟩
    once := List.nodup_cons.mpr ⟨hfresh, h.once⟩
    descends := by
      refine List.pairwise_append.mpr ⟨?_, List.pairwise_cons.mpr ⟨hfirst, hrest⟩, ?_⟩
      · refine List.pairwise_map.mpr (List.pairwise_of_forall fun _ _ other hother => ?_)
        exact absurd hother (by simp)
      · rintro task htask later hlater other rfl
        obtain ⟨target, htarget, rfl⟩ := List.mem_map.mp htask
        rcases List.mem_cons.mp hlater with hself | hlater
        · obtain rfl := Task.leave.inj hself
          exact .single (hfollows target htarget)
        · exact .tail (hfirst _ hlater other rfl) (hfollows target htarget)
    due := by
      refine h.due.imp_right fun hin => ?_
      rw [List.map_append, List.map_cons]
      exact List.mem_append_right _ hin
    bound := by
      have hbound := h.bound
      simp only [List.length_cons]
      omega }

/-- **Leaving a node** gives it its entry. -/
theorem leave (h : Duplicating source g table root bound (.leave id :: rest) c)
    (hmember : source.member? id = some payload) :
    Duplicating source g table root bound rest (c.leave id payload) := by
  obtain ⟨hentered, hnone⟩ := h.leaves id List.mem_cons_self
  obtain ⟨hnotin, hnodup⟩ := List.nodup_cons.mp h.nodup
  have hkeeps : c.Keeps (c.leave id payload) := keeps_leave hnone payload
  have hself : (c.leave id payload).transfer.copies.get? id
      = some ⟨c.transfer.target.nodes.size⟩ := by
    rw [get?_leave, if_pos rfl]
  have hothers : ∀ {other}, other ≠ id →
      (c.leave id payload).transfer.copies.get? other = c.transfer.copies.get? other := by
    intro other hne
    rw [get?_leave, if_neg hne]
  exact {
    done := h.done.leave hmember (h.path _ List.mem_cons_self) hnone fun target htarget =>
      (h.supplied.1 target ⟨payload, hmember, htarget⟩).resolve_right List.not_mem_nil
    path := fun task htask => h.path task (List.mem_cons_of_mem _ htask)
    supplied := by
      refine h.supplied.2.mono hkeeps fun other hother => ?_
      rw [List.mem_singleton.mp hother]
      exact .inl ⟨_, hself⟩
    leaves := by
      intro other hother
      have hne : other ≠ id := by
        rintro rfl
        exact hnotin hother
      rw [hothers hne]
      exact h.leaves other (List.mem_cons_of_mem _ hother)
    nodup := hnodup
    entered := by
      refine fun other hother => ⟨(h.entered other hother).1, fun hnone' => ?_⟩
      have hne : other ≠ id := by
        rintro rfl
        exact absurd (hself.symm.trans hnone') (by simp)
      rw [hothers hne] at hnone'
      exact (List.mem_cons.mp ((h.entered other hother).2 hnone')).resolve_left hne
    once := h.once
    descends := h.descends.tail
    due := by
      rcases h.due with ⟨place, hplace⟩ | hin
      · exact .inl ⟨place, hkeeps hplace⟩
      · rcases List.mem_cons.mp hin with hroot | hin
        · exact .inl ⟨_, by rw [hroot]; exact hself⟩
        · exact .inr hin
    bound := h.bound }

/-- **A node that was entered and has no entry reads itself if it is to be entered again.** -/
theorem entangled (h : Duplicating source g table root bound (.enter id :: rest) c)
    (hnone : c.transfer.copies.get? id = none) (hentered : id ∈ c.entered) :
      source.Entangled table root id := by
  have hlater : id ∈ Attachment.leaves rest := (h.entered id hentered).2 hnone
  refine ⟨⟨h.done.table_eq_none hnone, h.path _ List.mem_cons_self⟩, ?_⟩
  exact (List.pairwise_cons.mp h.descends).1 _ (Attachment.leave_mem_of_mem_leaves hlater) id rfl

end Duplicating

/-! ## 5. The whole walk -/

/-- **The view shows the members of the graph that is copied from**, as long as the other one only
grows at its end. -/
def Shows (view : Graph → Graph) (source g : Graph) : Prop :=
  ∀ {between : Graph}, (∀ {id : NodeId}, id.index < g.nodes.size → between.node? id = g.node? id) →
    ∀ {id payload}, source.member? id = some payload → (view between).member? id = some payload

/-- What can come of entering a member. -/
theorem enter_cases (hmember : source.member? id = some payload) :
    ((∃ place, c.transfer.copies.get? id = some place) ∧ c.enter source id = .ok none) ∨
    (c.transfer.copies.get? id = none ∧ id ∈ c.entered ∧ c.enter source id = .error (.cycle id)) ∨
    (c.transfer.copies.get? id = none ∧ id ∉ c.entered ∧
      c.enter source id = .ok (some payload)) := by
  obtain ⟨node, hnode, hstate, rfl⟩ := member?_eq_some_iff.mp hmember
  cases hcopied : c.transfer.copies.get? id with
  | some place => exact .inl ⟨⟨place, rfl⟩, by simp [enter, Table.contains, hcopied]⟩
  | none =>
    by_cases hentered : id ∈ c.entered
    · refine .inr (.inl ⟨rfl, hentered, ?_⟩)
      simp [enter, Table.contains, hcopied, Graph.node, hnode, bind, Except.bind,
        Node.isDeleted, hstate, hentered, throw, throwThe, MonadExceptOf.throw]
    · refine .inr (.inr ⟨rfl, hentered, ?_⟩)
      simp [enter, Table.contains, hcopied, Graph.node, hnode, bind, Except.bind,
        Node.isDeleted, hstate, hentered, pure, Except.pure]

/-- **Of a copying walk from a member comes a copy of everything to be copied, or the fault that a
node to be copied reads itself.** -/
theorem walk_duplicates {view : Graph → Graph} (hview : Shows view source g) (hkept : source.Kept)
    (hroot : source.member? root = some payload)
    (h : Duplicating source g table root bound tasks c) :
    ((walk view bound tasks c).result = .ok () ∧
      Duplicated source g table root (walk view bound tasks c).state ∧
      ∃ place, (walk view bound tasks c).state.transfer.copies.get? root = some place) ∨
    ∃ id, (walk view bound tasks c).result = .error (.cycle id) ∧
      source.Entangled table root id := by
  -- Every step is about a member, and the view shows it.
  have hmember : ∀ {bound task rest c}, Duplicating source g table root bound (task :: rest) c →
      ∃ found, source.member? (Attachment.subject task) = some found ∧
        (view c.transfer.target).member? (Attachment.subject task) = some found := by
    intro bound task rest c h
    obtain ⟨found, hfound⟩ := hkept.member?_of_follows hroot (h.path _ List.mem_cons_self)
    exact ⟨found, hfound, hview h.done.old hfound⟩
  fun_induction walk view bound tasks c with
  | case1 bound c => exact .inl ⟨rfl, h.done, h.due.resolve_right (by simp)⟩
  | case2 bound c id rest hpayload =>
    obtain ⟨found, -, hshown⟩ := hmember h
    exact absurd ((payload?_of_member? hshown).symm.trans hpayload) (by simp)
  | case3 bound c id rest payload hpayload ih =>
    obtain ⟨found, hfound, hshown⟩ := hmember h
    obtain rfl := Option.some.inj ((payload?_of_member? hshown).symm.trans hpayload)
    exact ih (h.leave hfound)
  | case4 bound c id rest fault henter =>
    obtain ⟨found, -, hshown⟩ := hmember h
    rcases enter_cases (c := c) hshown with ⟨-, hstep⟩ | ⟨hnone, hentered, hstep⟩ | ⟨-, -, hstep⟩
    · exact absurd (hstep.symm.trans henter) (by simp)
    · cases hstep.symm.trans henter
      exact .inr ⟨id, rfl, h.entangled hnone hentered⟩
    · exact absurd (hstep.symm.trans henter) (by simp)
  | case5 bound c id rest henter ih =>
    obtain ⟨found, -, hshown⟩ := hmember h
    rcases enter_cases (c := c) hshown with ⟨⟨place, hplace⟩, -⟩ | ⟨-, -, hstep⟩ | ⟨-, -, hstep⟩
    · exact ih (h.skip hplace)
    · exact absurd (hstep.symm.trans henter) (by simp)
    · exact absurd (hstep.symm.trans henter) (by simp)
  | case6 c id rest payload henter =>
    obtain ⟨found, hfound, hshown⟩ := hmember h
    rcases enter_cases (c := c) hshown with ⟨-, hstep⟩ | ⟨-, -, hstep⟩ | ⟨-, hfresh, -⟩
    · exact absurd (hstep.symm.trans henter) (by simp)
    · exact absurd (hstep.symm.trans henter) (by simp)
    · have hlength := h.length_lt hfound hfresh
      have hbound := h.bound
      omega
  | case7 c id rest payload henter bound ih =>
    obtain ⟨found, hfound, hshown⟩ := hmember h
    rcases enter_cases (c := c) hshown with ⟨-, hstep⟩ | ⟨-, -, hstep⟩ | ⟨hnone, hfresh, hstep⟩
    · exact absurd (hstep.symm.trans henter) (by simp)
    · exact absurd (hstep.symm.trans henter) (by simp)
    · obtain rfl := Option.some.inj (Except.ok.inj (hstep.symm.trans henter))
      exact ih (h.enter hfound hnone hfresh)

end Copying

end Graph

end BehaviorGraph
