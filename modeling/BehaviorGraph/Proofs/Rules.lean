/-
# Rules and widths

What a node of a kind has to observe speaks of the widths of its operands and of the kinds of the
control nodes it is joined with, and of nothing else.  `Payload.Obeys` is the rule as a statement,
and the check finds nothing exactly if every member obeys (`Graph.checkKinds_errors_eq_nil_iff`).

Since targets count only for their widths and kinds, **a payload obeys wherever its edges lead, as
long as widths and the kinds of control nodes stay** (`Obeys.mapEdges`).  Widths are read off a
graph like values (`Graph.widthOf_eq_value`), so what is known about interpretations applies to
them.
-/
import BehaviorGraph.Check
import BehaviorGraph.Proofs.Interpretation

namespace BehaviorGraph

/-! ## 1. The rules -/

namespace Payload

variable {payload : Payload} {width width' : NodeId → Option Nat}
  {kind kind' : NodeId → Option Kind}

/-- A target whose width is known has a width that `right` allows. -/
def Fits (width : NodeId → Option Nat) (target : NodeId) (right : Nat → Prop) : Prop :=
  ∀ w, width target = some w → right w

/-- **What a payload has to observe**, given the widths and kinds of its targets. -/
def Obeys (width : NodeId → Option Nat) (kind : NodeId → Option Kind) : Payload → Prop
  | branch condition trueBranch falseBranch =>
    Fits width condition (· = 1) ∧ (∀ target, trueBranch = some target →
      kind target = some .blockStart) ∧
      ∀ target, falseBranch = some target → kind target = some .blockStart
  | merge branchEnds _ => branchEnds ≠ [] ∧ ∀ target ∈ branchEnds, kind target = some .branchEnd
  | builtInCall args op _ => args.length = op.arity
  | select condition trueCase falseCase type =>
    Fits width condition (· = 1) ∧ Fits width trueCase (· = type.width) ∧
      Fits width falseCase (· = type.width)
  | slice value high low type =>
    low ≤ high ∧ Fits width value (high < ·) ∧ type.width = high - low + 1
  | zeroExtend value type | signExtend value type => Fits width value (· ≤ type.width)
  | truncate value type => Fits width value (type.width ≤ ·)
  | writeReg _ condition _ | writeRegFile _ _ condition _ | writeMem _ _ condition _ _ =>
    ∀ target, condition = some target → Fits width target (· = 1)
  | _ => True

/-- Unique nodes have no rule. -/
theorem obeys_of_isUnique (h : payload.kind.isUnique = true) : payload.Obeys width kind := by
  cases payload <;> trivial

/-- **A payload obeys wherever its edges lead**, if what they lead to has the same width, and the
same kind unless it is a value. -/
theorem Obeys.mapEdges {f : NodeId → NodeId} (h : payload.Obeys width kind)
    (hwidth : ∀ target ∈ payload.inputEdges, width' (f target) = width target)
    (hkind : ∀ target ∈ payload.edges, ∀ found, kind target = some found →
      found.isA .value = false → kind' (f target) = some found) :
    (payload.mapEdges f).Obeys width' kind' := by
  have hfits : ∀ {target right}, target ∈ payload.inputEdges → Fits width target right →
      Fits width' (f target) right := by
    intro target right htarget hright w hw
    exact hright w ((hwidth target htarget).symm.trans hw)
  cases payload with
  | branch condition trueBranch falseBranch =>
    obtain ⟨hcondition, htrue, hfalse⟩ := h
    refine ⟨hfits (by simp [inputEdges, inputSlots, Slot.required]) hcondition, ?_, ?_⟩
    · rintro _ hset
      obtain ⟨target, rfl, rfl⟩ := Option.map_eq_some_iff.mp hset
      exact hkind target (by simp [edges, slots, successorSlots, Slot.maybe]) _
        (htrue target rfl) rfl
    · rintro _ hset
      obtain ⟨target, rfl, rfl⟩ := Option.map_eq_some_iff.mp hset
      exact hkind target (by simp [edges, slots, successorSlots, Slot.maybe]) _
        (hfalse target rfl) rfl
  | merge branchEnds next =>
    obtain ⟨hne, hends⟩ := h
    rw [mapEdges_merge]
    refine ⟨by simpa using hne, fun target htarget => ?_⟩
    obtain ⟨source, hsource, rfl⟩ := List.mem_map.mp htarget
    exact hkind source (by simp [edges, slots, inputSlots, Slot.required, hsource]) _
      (hends source hsource) rfl
  | builtInCall args op type =>
    rw [mapEdges_builtInCall]
    exact (List.length_map f).trans h
  | select condition trueCase falseCase type =>
    obtain ⟨hcondition, htrue, hfalse⟩ := h
    exact ⟨hfits (by simp) hcondition, hfits (by simp) htrue, hfits (by simp) hfalse⟩
  | slice value high low type =>
    obtain ⟨hle, hrange, htype⟩ := h
    exact ⟨hle, hfits (value_mem_inputEdges rfl) hrange, htype⟩
  | zeroExtend value type | signExtend value type | truncate value type =>
    exact hfits (value_mem_inputEdges rfl) h
  | writeReg _ condition _ | writeRegFile _ _ condition _ | writeMem _ _ condition _ _ =>
    rintro _ hset
    obtain ⟨target, rfl, rfl⟩ := Option.map_eq_some_iff.mp hset
    exact hfits (by simp [inputEdges, inputSlots, Slot.required, Slot.maybe]) (h target rfl)
  | _ => trivial

end Payload

namespace Graph

variable {g : Graph} {id : NodeId} {payload : Payload} {rank : NodeId → Nat}

/-! ## 2. What the check finds -/

/-- No width is found wrong exactly if the width, if there is one, is right. -/
theorem badWidth?_eq_none_iff (g : Graph) (id : NodeId) (wrong : Nat → Bool) :
    g.badWidth? id wrong = none ↔ Payload.Fits g.widthOf id fun w => wrong w = false := by
  unfold badWidth? Payload.Fits
  cases g.widthOf id <;> simp

/-- A condition is one bit wide. -/
theorem conditionErrors_eq_nil_iff {condition : NodeId} :
    g.conditionErrors id condition = [] ↔ Payload.Fits g.widthOf condition (· = 1) := by
  have hiff := g.badWidth?_eq_none_iff condition fun width => !decide (width = 1)
  simp only [Bool.not_eq_false', decide_eq_true_eq] at hiff
  rw [← hiff, conditionErrors]
  split <;> simp_all

/-- A branch leads to where a block begins. -/
theorem branchErrors_eq_nil_iff {target : Option NodeId} :
    g.branchErrors id target = []
      ↔ ∀ found, target = some found → g.kind? found = some .blockStart := by
  unfold branchErrors
  cases target with
  | none => simp
  | some found => by_cases hkind : g.kind? found = some .blockStart <;> simp [hkind]

/-- What is merged are ends of branches, and at least one. -/
theorem mergeErrors_eq_nil_iff {branchEnds : List NodeId} :
    g.mergeErrors id branchEnds = []
      ↔ branchEnds ≠ [] ∧ ∀ target ∈ branchEnds, g.kind? target = some .branchEnd := by
  unfold mergeErrors
  cases branchEnds <;> simp

/-- A case is as wide as the choice. -/
theorem caseErrors_eq_nil_iff {type : ValueType} {choice : NodeId} :
    g.caseErrors id type choice = [] ↔ Payload.Fits g.widthOf choice (· = type.width) := by
  have hiff := g.badWidth?_eq_none_iff choice fun width => !decide (width = type.width)
  simp only [Bool.not_eq_false', decide_eq_true_eq] at hiff
  rw [← hiff, caseErrors]
  split <;> simp_all

/-- The bits of a slice are there, in order, and as many as its type has. -/
theorem sliceErrors_eq_nil_iff {value : NodeId} {high low : Nat} {type : ValueType} :
    g.sliceErrors id value high low type = []
      ↔ low ≤ high ∧ Payload.Fits g.widthOf value (high < ·) ∧ type.width = high - low + 1 := by
  have hiff := g.badWidth?_eq_none_iff value fun width => decide (width ≤ high)
  simp only [decide_eq_false_iff_not, Nat.not_le] at hiff
  rw [← hiff, sliceErrors]
  by_cases hlow : high < low
  · simp [hlow, Nat.not_le.mpr hlow]
  · cases hrange : g.badWidth? value fun width => decide (width ≤ high) with
    | some width => simp
    | none =>
      by_cases htype : type.width = high - low + 1 <;> simp [hlow, Nat.not_lt.mp hlow, htype]

/-- An extension does not narrow. -/
theorem extensionErrors_eq_nil_iff {value : NodeId} {type : ValueType} :
    g.extensionErrors id value type = [] ↔ Payload.Fits g.widthOf value (· ≤ type.width) := by
  have hiff := g.badWidth?_eq_none_iff value fun width => decide (type.width < width)
  simp only [decide_eq_false_iff_not, Nat.not_lt] at hiff
  rw [← hiff, extensionErrors]
  split <;> simp_all

/-- A truncation does not widen. -/
theorem truncationErrors_eq_nil_iff {value : NodeId} {type : ValueType} :
    g.truncationErrors id value type = [] ↔ Payload.Fits g.widthOf value (type.width ≤ ·) := by
  have hiff := g.badWidth?_eq_none_iff value fun width => decide (width < type.width)
  simp only [decide_eq_false_iff_not, Nat.not_lt] at hiff
  rw [← hiff, truncationErrors]
  split <;> simp_all

/-- **There is nothing to complain about a member exactly if it obeys.** -/
theorem kindErrors_eq_nil_iff (h : g.payload? id = some payload) :
    g.kindErrors id = [] ↔ payload.Obeys g.widthOf g.kind? := by
  unfold kindErrors
  rw [h]
  cases payload with
  | branch condition trueBranch falseBranch =>
    simp only [List.append_eq_nil_iff, conditionErrors_eq_nil_iff,
      branchErrors_eq_nil_iff, and_assoc, Payload.Obeys]
  | merge branchEnds next => exact mergeErrors_eq_nil_iff
  | builtInCall args op type =>
    by_cases harity : args.length = op.arity <;> simp [Payload.Obeys, harity]
  | select condition trueCase falseCase type =>
    simp only [List.append_eq_nil_iff, conditionErrors_eq_nil_iff, caseErrors_eq_nil_iff, and_assoc,
      Payload.Obeys]
  | slice value high low type => exact sliceErrors_eq_nil_iff
  | zeroExtend value type | signExtend value type => exact extensionErrors_eq_nil_iff
  | truncate value type => exact truncationErrors_eq_nil_iff
  | writeReg _ condition _ | writeRegFile _ _ condition _ | writeMem _ _ condition _ _ =>
    cases condition <;> simp [Payload.Obeys, conditionErrors_eq_nil_iff]
  | _ => simp [Payload.Obeys]

/-- Every member obeys. -/
def Lawful (g : Graph) : Prop :=
  ∀ {id payload}, g.member? id = some payload → payload.Obeys g.widthOf g.kind?

/-- **Nothing is wrong with the kinds exactly if every payload obeys.** -/
theorem checkKinds_errors_eq_nil_iff : g.checkKinds.errors = [] ↔ g.Lawful := by
  unfold checkKinds Diagnostics.ofErrors Lawful
  rw [List.flatMap_eq_nil_iff]
  constructor
  · intro h id payload hmember
    exact (kindErrors_eq_nil_iff (payload?_of_member? hmember)).mp
      (h id (mem_members_iff.mpr ⟨payload, hmember⟩))
  · intro h id hid
    obtain ⟨payload, hmember⟩ := mem_members_iff.mp hid
    exact (kindErrors_eq_nil_iff (payload?_of_member? hmember)).mpr (h hmember)

/-! ## 3. Widths -/

/-- The width of a payload: a binding is as wide as what it names. -/
def measure (payload : Payload) (read : NodeId → Option Nat) : Option Nat :=
  match payload with
  | .binding value _ => read value
  | payload => payload.declaredType.map ValueType.width

/-- Widths as an interpretation of the members. -/
def measuring : Interpretation Nat where
  step _ := measure
  step_mapEdges := by
    intro id payload f read read' h
    cases payload with
    | binding value _ => exact h value (Payload.value_mem_inputEdges rfl)
    | _ => rfl

/-- **The width of a member follows from its payload and the widths of what it reads.** -/
theorem widthOf_eq_value (h : g.Kept) (hranked : g.Ranked rank)
    (hmember : g.member? id = some payload) :
    g.widthOf id = measuring.value g id := by
  refine hranked.induct h (P := fun id => g.widthOf id = measuring.value g id) ?_ hmember
  intro id payload hmember ih
  rw [Interpretation.value_eq_step h hranked hmember, widthOf, typeOf_eq h hranked hmember]
  cases payload with
  | binding value name => exact ih value (Payload.value_mem_inputEdges rfl)
  | _ => rfl

/-- The width of a member in terms of the widths it reads. -/
theorem widthOf_eq_measure (h : g.Kept) (hranked : g.Ranked rank)
    (hmember : g.member? id = some payload) : g.widthOf id = measure payload g.widthOf := by
  rw [widthOf, typeOf_eq h hranked hmember]
  cases payload <;> rfl

end Graph

end BehaviorGraph
