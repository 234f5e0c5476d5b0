/-
# Slots as a positional view of payloads

Reading the slots of a payload and assigning their targets are two sides of one view
(`Payload.inputSlots`, `Payload.assignInputs`, and the same for successors).  This module says what
assigning does in terms of the slots alone, so that no later proof looks at the 26 payloads again.

* `inputSlots_assignInputs`, `successorSlots_assignSuccessors`: **assigning acts on each slot by
  itself**, through what the given list has at the slot's place (`Slot.assign`).
* `slots_mapEdges`: sending every edge through a function acts on the slots alone.

Each sort of edges is untouched by assigning the other, and neither changes the kind.
-/
import BehaviorGraph.Payload

namespace BehaviorGraph

/-! ## 1. One slot -/

namespace Slot

/-- What a slot becomes when its place in the given list holds `given`: a list that is too short
leaves the slot alone, and so does an empty target if the slot is required. -/
def assign (slot : Slot) (given : Option (Option NodeId)) : Slot :=
  { slot with
    target := if slot.optional then given.getD slot.target else given.join.or slot.target }

/-- The slot with another target. -/
def withTarget (slot : Slot) (target : Option NodeId) : Slot := { slot with target := target }

/-- The slot with its target, if any, sent through `f`. -/
def through (f : NodeId → NodeId) (slot : Slot) : Slot := slot.withTarget (slot.target.map f)

/-- A slot may be given a target if it is optional or the target is there. -/
def Takes (slot : Slot) (target : Option NodeId) : Prop :=
  slot.optional = true ∨ target.isSome = true

/-- A slot is legal if it may have the target it has. -/
def Legal (slot : Slot) : Prop := slot.Takes slot.target

@[simp] theorem legal_required (name : String) (family : Family) (target : NodeId) :
    (Slot.required name family target).Legal := Or.inr rfl

@[simp] theorem legal_maybe (name : String) (family : Family) (target : Option NodeId) :
    (Slot.maybe name family target).Legal := Or.inl rfl

@[simp] theorem assign_none (slot : Slot) : slot.assign none = slot := by
  cases slot
  simp [assign]

@[simp] theorem assign_optional (slot : Slot) (given : Option (Option NodeId)) :
    (slot.assign given).optional = slot.optional := rfl

@[simp] theorem assign_family (slot : Slot) (given : Option (Option NodeId)) :
    (slot.assign given).family = slot.family := rfl

@[simp] theorem withTarget_target (slot : Slot) (target : Option NodeId) :
    (slot.withTarget target).target = target := rfl

@[simp] theorem withTarget_optional (slot : Slot) (target : Option NodeId) :
    (slot.withTarget target).optional = slot.optional := rfl

@[simp] theorem withTarget_family (slot : Slot) (target : Option NodeId) :
    (slot.withTarget target).family = slot.family := rfl

@[simp] theorem through_optional (f : NodeId → NodeId) (slot : Slot) :
    (slot.through f).optional = slot.optional := rfl

@[simp] theorem through_family (f : NodeId → NodeId) (slot : Slot) :
    (slot.through f).family = slot.family := rfl

@[simp] theorem through_target (f : NodeId → NodeId) (slot : Slot) :
    (slot.through f).target = slot.target.map f := rfl

/-- A slot that takes the target it is given has it then. -/
theorem assign_of_takes {slot : Slot} {target : Option NodeId} (h : slot.Takes target) :
    slot.assign (some target) = slot.withTarget target := by
  cases target with
  | some id => cases hopt : slot.optional <;> simp [assign, withTarget, hopt]
  | none =>
    have hopt : slot.optional = true := by simpa [Takes] using h
    simp [assign, withTarget, hopt]

theorem takes_map {slot : Slot} (h : slot.Legal) (f : NodeId → NodeId) :
    slot.Takes (slot.target.map f) := by
  rcases h with hopt | hset
  · exact Or.inl hopt
  · exact Or.inr (by simpa using hset)

end Slot

/-! ## 2. Assigning -/

namespace Payload

/-- A list of required slots takes the given targets one by one. -/
theorem map_required_assignList (name : String) (family : Family) :
    ∀ (given : List (Option NodeId)) (targets : List NodeId),
      (assignList given targets).map (Slot.required name family)
        = (targets.map (Slot.required name family)).mapIdx
            fun place slot => slot.assign given[place]?
  | _, [] => by simp [assignList]
  | [], target :: targets => by
    simp [assignList, List.mapIdx_eq_zipIdx_map]
  | given :: rest, target :: targets => by
    have ih := map_required_assignList name family rest targets
    simp only [assignList, List.map_cons, List.mapIdx_cons, ih, List.getElem?_cons_zero,
      List.getElem?_cons_succ]
    cases given <;> simp [Slot.assign, Slot.required]

theorem required_assignRequired (name : String) (family : Family) (given : List (Option NodeId))
    (place : Nat) (old : NodeId) :
    Slot.required name family (assignRequired given place old)
      = (Slot.required name family old).assign given[place]? := by
  simp only [Slot.required, assignRequired, Slot.assign]
  split
  · rename_i target h
    simp [h]
  · rename_i h
    cases hgiven : given[place]? with
    | none => rfl
    | some target =>
      cases target with
      | none => rfl
      | some id => exact absurd hgiven (h id)

theorem maybe_assignOptional (name : String) (family : Family) (given : List (Option NodeId))
    (place : Nat) (old : Option NodeId) :
    Slot.maybe name family (assignOptional given place old)
      = (Slot.maybe name family old).assign given[place]? := by
  simp only [Slot.maybe, assignOptional, Slot.assign]
  cases given[place]? <;> rfl

/-- **Assigning inputs acts on each input slot by itself.** -/
theorem inputSlots_assignInputs (payload : Payload) (given : List (Option NodeId)) :
    (payload.assignInputs given).inputSlots
      = payload.inputSlots.mapIdx fun place slot => slot.assign given[place]? := by
  cases payload <;>
    simp [assignInputs, inputSlots, map_required_assignList, required_assignRequired,
      maybe_assignOptional]

/-- **Assigning successors acts on each successor slot by itself.** -/
theorem successorSlots_assignSuccessors (payload : Payload) (given : List (Option NodeId)) :
    (payload.assignSuccessors given).successorSlots
      = payload.successorSlots.mapIdx fun place slot => slot.assign given[place]? := by
  cases payload <;> simp [assignSuccessors, successorSlots, maybe_assignOptional]

@[simp] theorem successorSlots_assignInputs (payload : Payload) (given : List (Option NodeId)) :
    (payload.assignInputs given).successorSlots = payload.successorSlots := by
  cases payload <;> rfl

@[simp] theorem inputSlots_assignSuccessors (payload : Payload) (given : List (Option NodeId)) :
    (payload.assignSuccessors given).inputSlots = payload.inputSlots := by
  cases payload <;> rfl

@[simp] theorem kind_assignInputs (payload : Payload) (given : List (Option NodeId)) :
    (payload.assignInputs given).kind = payload.kind := by
  cases payload <;> rfl

@[simp] theorem kind_assignSuccessors (payload : Payload) (given : List (Option NodeId)) :
    (payload.assignSuccessors given).kind = payload.kind := by
  cases payload <;> rfl

/-! ## 3. Every slot of a payload is legal -/

theorem legal_of_mem_inputSlots (payload : Payload) : ∀ slot ∈ payload.inputSlots, slot.Legal := by
  cases payload <;> simp [inputSlots]

theorem legal_of_mem_successorSlots (payload : Payload) :
    ∀ slot ∈ payload.successorSlots, slot.Legal := by
  cases payload <;> simp [successorSlots]

/-- **A slot of a payload lacks a target only if it may.** -/
theorem legal_of_mem_slots {payload : Payload} {slot : Slot} (h : slot ∈ payload.slots) :
    slot.Legal := by
  rcases List.mem_append.mp h with hin | hsucc
  · exact legal_of_mem_inputSlots payload slot hin
  · exact legal_of_mem_successorSlots payload slot hsucc

/-! ## 4. Assigning what the slots take -/

/-- Slots that take what they are given, one for one, have it then. -/
theorem mapIdx_assign_of_takes :
    ∀ {slots : List Slot} {given : List (Option NodeId)}, slots.length = given.length →
      (∀ change ∈ slots.zip given, change.1.Takes change.2) →
      (slots.mapIdx fun place slot => slot.assign given[place]?)
        = (slots.zip given).map fun change => change.1.withTarget change.2
  | [], _, _, _ => by simp
  | slot :: slots, [], hlen, _ => by simp at hlen
  | slot :: slots, target :: given, hlen, htakes => by
    have hhead : slot.Takes target := htakes (slot, target) (by simp)
    have htail : ∀ change ∈ slots.zip given, change.1.Takes change.2 := fun change hmem =>
      htakes change (by simp [hmem])
    have ih := mapIdx_assign_of_takes (by simpa using hlen) htail
    simp [List.mapIdx_cons, Slot.assign_of_takes hhead, ih]

/-- Sending each slot's own target through a function, slot by slot. -/
theorem mapIdx_assign_map {slots : List Slot} (h : ∀ slot ∈ slots, slot.Legal)
    (f : NodeId → NodeId) :
    (slots.mapIdx fun place slot => slot.assign
      ((slots.map Slot.target).map (Option.map f))[place]?)
      = slots.map (Slot.through f) := by
  refine List.ext_getElem? fun place => ?_
  simp only [List.getElem?_mapIdx, List.getElem?_map]
  cases hslot : slots[place]? with
  | none => rfl
  | some slot =>
    have hlegal : slot.Legal := h slot (List.mem_of_getElem? hslot)
    simp [Slot.assign_of_takes (Slot.takes_map hlegal f), Slot.through]

theorem inputSlots_mapEdges (f : NodeId → NodeId) (payload : Payload) :
    (payload.mapEdges f).inputSlots = payload.inputSlots.map (Slot.through f) := by
  rw [mapEdges, inputSlots_assignSuccessors, inputSlots_assignInputs]
  exact mapIdx_assign_map (legal_of_mem_inputSlots payload) f

theorem successorSlots_mapEdges (f : NodeId → NodeId) (payload : Payload) :
    (payload.mapEdges f).successorSlots = payload.successorSlots.map (Slot.through f) := by
  rw [mapEdges, successorSlots_assignSuccessors, successorSlots_assignInputs]
  exact mapIdx_assign_map (legal_of_mem_successorSlots payload) f

/-- **Every edge goes through the function, and nothing else changes.** -/
theorem slots_mapEdges (f : NodeId → NodeId) (payload : Payload) :
    (payload.mapEdges f).slots = payload.slots.map (Slot.through f) := by
  rw [slots, slots, List.map_append, inputSlots_mapEdges, successorSlots_mapEdges]

/-- The targets behind the edges go through the function. -/
theorem edges_mapEdges (f : NodeId → NodeId) (payload : Payload) :
    (payload.mapEdges f).edges = payload.edges.map f := by
  rw [edges, edges, slots_mapEdges, List.filterMap_map, List.map_filterMap]
  rfl

theorem inputs_mapEdges (f : NodeId → NodeId) (payload : Payload) :
    (payload.mapEdges f).inputs = payload.inputs.map (Option.map f) := by
  simp [inputs, inputSlots_mapEdges, Function.comp_def]

theorem successors_mapEdges (f : NodeId → NodeId) (payload : Payload) :
    (payload.mapEdges f).successors = payload.successors.map (Option.map f) := by
  simp [successors, successorSlots_mapEdges, Function.comp_def]

theorem inputEdges_mapEdges (f : NodeId → NodeId) (payload : Payload) :
    (payload.mapEdges f).inputEdges = payload.inputEdges.map f := by
  rw [inputEdges, inputEdges, inputSlots_mapEdges, List.filterMap_map, List.map_filterMap]
  rfl

@[simp] theorem kind_mapEdges (f : NodeId → NodeId) (payload : Payload) :
    (payload.mapEdges f).kind = payload.kind := by
  rw [mapEdges, kind_assignSuccessors, kind_assignInputs]

/-- A list of required slots takes all the targets it is given, if they are as many. -/
theorem assignList_map {α : Type} (f old : α → NodeId) (items : List α) :
    assignList (items.map fun item => some (f item)) (items.map old) = items.map f := by
  induction items with
  | nil => rfl
  | cons item items ih => simp [assignList, ih]

theorem assignList_map_some (f : NodeId → NodeId) (targets : List NodeId) :
    assignList (targets.map fun target => some (f target)) targets = targets.map f := by
  simpa using assignList_map f id targets

/-- Targets assigned back change nothing. -/
theorem assignList_some (targets : List NodeId) :
    assignList (targets.map some) targets = targets := by
  simpa using assignList_map_some id targets

theorem assignInputs_inputs (payload : Payload) :
    payload.assignInputs payload.inputs = payload := by
  cases payload <;>
    simp [assignInputs, inputs, inputSlots, Slot.required, Slot.maybe, assignRequired,
      assignOptional, Function.comp_def, assignList_some]

theorem assignSuccessors_successors (payload : Payload) :
    payload.assignSuccessors payload.successors = payload := by
  cases payload <;>
    simp [assignSuccessors, successors, successorSlots, Slot.maybe, assignOptional]

/-- Sending targets through one function and then through another is sending them through both. -/
theorem mapEdges_mapEdges (f f' : NodeId → NodeId) (payload : Payload) :
    (payload.mapEdges f).mapEdges f' = payload.mapEdges fun target => f' (f target) := by
  cases payload <;>
    simp [mapEdges, assignInputs, assignSuccessors, inputs, successors, inputSlots, successorSlots,
      Slot.required, Slot.maybe, assignRequired, assignOptional, Function.comp_def, assignList_map,
      assignList_map_some]

/-- Targets sent elsewhere can be put back. -/
theorem assign_mapEdges (f : NodeId → NodeId) (payload : Payload) :
    ((payload.mapEdges f).assignInputs payload.inputs).assignSuccessors payload.successors
      = payload := by
  have hlist : ∀ targets : List NodeId, assignList (targets.map some) (targets.map f) = targets :=
    fun targets => (assignList_map id f targets).trans (List.map_id targets)
  cases payload <;>
    simp [mapEdges, assignInputs, assignSuccessors, inputs, successors, inputSlots, successorSlots,
      Slot.required, Slot.maybe, assignRequired, assignOptional, Function.comp_def,
        assignList_map_some, hlist]

/-! Where the edges are fields of their own the equation holds by definition; where they are a list
it is one of these. -/

theorem mapEdges_builtInCall (f : NodeId → NodeId) (args : List NodeId) (op : BuiltIn)
    (type : ValueType) :
    (builtInCall args op type).mapEdges f = builtInCall (args.map f) op type := by
  simp [mapEdges, assignInputs, assignSuccessors, inputs, inputSlots, Slot.required,
    Function.comp_def, assignList_map_some]

theorem mapEdges_funcCall (f : NodeId → NodeId) (args : List NodeId) (func : String)
    (type : ValueType) :
    (funcCall args func type).mapEdges f = funcCall (args.map f) func type := by
  simp [mapEdges, assignInputs, assignSuccessors, inputs, inputSlots, Slot.required,
    Function.comp_def, assignList_map_some]

theorem mapEdges_merge (f : NodeId → NodeId) (branchEnds : List NodeId) (next : Option NodeId) :
    (merge branchEnds next).mapEdges f = merge (branchEnds.map f) (next.map f) := by
  simp [mapEdges, assignInputs, assignSuccessors, inputs, successors, inputSlots, successorSlots,
    Slot.required, Slot.maybe, assignOptional, Function.comp_def, assignList_map_some]

/-- A function that fixes every target changes nothing. -/
theorem mapEdges_eq_self {f : NodeId → NodeId} {payload : Payload}
    (h : ∀ target ∈ payload.edges, f target = target) : payload.mapEdges f = payload := by
  have hfix : ∀ slot ∈ payload.slots, slot.target.map f = slot.target := by
    intro slot hslot
    cases htarget : slot.target with
    | none => rfl
    | some target =>
      rw [Option.map_some, h target (List.mem_filterMap.mpr ⟨slot, hslot, htarget⟩)]
  have hin : payload.inputs.map (Option.map f) = payload.inputs := by
    rw [inputs, List.map_map]
    exact List.map_congr_left fun slot hslot => hfix slot (List.mem_append_left _ hslot)
  have hsucc : payload.successors.map (Option.map f) = payload.successors := by
    rw [successors, List.map_map]
    exact List.map_congr_left fun slot hslot => hfix slot (List.mem_append_right _ hslot)
  rw [mapEdges, hin, hsucc, assignInputs_inputs, assignSuccessors_successors]

/-- A payload of a unique kind has no edges to change. -/
theorem slots_of_isUnique {payload : Payload} (h : payload.kind.isUnique = true) :
    payload.slots = [] := by
  cases payload <;> first | rfl | exact Bool.noConfusion h

theorem edges_of_isUnique {payload : Payload} (h : payload.kind.isUnique = true) :
    payload.edges = [] := by
  rw [edges, slots_of_isUnique h, List.filterMap_nil]

theorem assignInputs_of_isUnique {payload : Payload} (h : payload.kind.isUnique = true)
    (given : List (Option NodeId)) : payload.assignInputs given = payload := by
  cases payload <;> first | rfl | exact Bool.noConfusion h

theorem assignSuccessors_of_isUnique {payload : Payload} (h : payload.kind.isUnique = true)
    (given : List (Option NodeId)) : payload.assignSuccessors given = payload := by
  cases payload <;> first | rfl | exact Bool.noConfusion h

theorem mapEdges_of_isUnique {payload : Payload} (h : payload.kind.isUnique = true)
    (f : NodeId → NodeId) : payload.mapEdges f = payload :=
  mapEdges_eq_self (by simp [edges_of_isUnique h])

/-- A target behind an edge is the target of a slot. -/
theorem mem_edges_iff {payload : Payload} {id : NodeId} :
    id ∈ payload.edges ↔ ∃ slot ∈ payload.slots, slot.target = some id := by
  simp [edges, List.mem_filterMap]

end Payload

end BehaviorGraph
