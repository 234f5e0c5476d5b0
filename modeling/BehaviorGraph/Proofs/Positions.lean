/-
# The laws of the positional view

Reading the slots of a payload and assigning their targets by position is a lens.  What was
assigned is read back, what was read can be assigned back, the second of two assignments counts,
and all that is no target of the sort in question stays: names, families, the number of slots, the
other sort, the data.  `Payload.Viewed` has these laws for one sort of slots, and **both sorts of
every payload obey them** (`slots_lawful`).

None of the laws is proved payload by payload.  Assigning acts on each slot by itself
(`inputSlots_assignInputs`, `successorSlots_assignSuccessors`), it keeps the bare payload
(`bare_assignInputs`, `bare_assignSuccessors`), and a bare payload and its targets make the payload
(`eq_of_bare`).  The laws follow from these three for any sort of slots (`Viewed.of_slotwise`).
-/
import BehaviorGraph.Proofs.Slots
import Mathlib.Data.List.Forall2

namespace BehaviorGraph

/-! ## 1. One slot -/

namespace Slot

/-- What a slot is, whatever its target: its name, whether it may be empty, and its family. -/
def shape (slot : Slot) : String × Bool × Family := (slot.name, slot.optional, slot.family)

@[simp] theorem shape_assign (slot : Slot) (given : Option (Option NodeId)) :
    (slot.assign given).shape = slot.shape := rfl

/-- A required slot ignores that it is given nothing. -/
theorem assign_unset {slot : Slot} (h : slot.optional = false) :
    slot.assign (some none) = slot := by
  cases slot
  simp_all [assign]

/-- What a slot takes depends on its shape alone. -/
theorem takes_congr {slot slot' : Slot} (h : slot'.shape = slot.shape) (target : Option NodeId) :
    slot'.Takes target ↔ slot.Takes target := by
  have hoptional : slot'.optional = slot.optional := congrArg (·.2.1) h
  rw [Takes, Takes, hoptional]

end Slot

namespace Payload

variable {payload found : Payload} {given : List (Option NodeId)}

/-! ## 2. Bare payloads -/

/-- **What a payload is without its targets**: its kind, its data and the lengths of its lists.  A
required target is always the same node, and an optional one is missing. -/
def bare : Payload → Payload
  | start _ => start none
  | blockStart _ => blockStart none
  | branch _ _ _ => branch ⟨0⟩ none none
  | merge branchEnds _ => merge (branchEnds.map fun _ => ⟨0⟩) none
  | branchEnd effects => branchEnd (effects.map fun _ => ⟨0⟩)
  | ret _ => ret ⟨0⟩
  | instrEnd effects => instrEnd (effects.map fun _ => ⟨0⟩)
  | procEnd effects => procEnd (effects.map fun _ => ⟨0⟩)
  | const constant => const constant
  | param name type => param name type
  | field name type => field name type
  | builtInCall args op type => builtInCall (args.map fun _ => ⟨0⟩) op type
  | funcCall args func type => funcCall (args.map fun _ => ⟨0⟩) func type
  | select _ _ _ type => select ⟨0⟩ ⟨0⟩ ⟨0⟩ type
  | slice _ high low type => slice ⟨0⟩ high low type
  | binding _ name => binding ⟨0⟩ name
  | zeroExtend _ type => zeroExtend ⟨0⟩ type
  | signExtend _ type => signExtend ⟨0⟩ type
  | truncate _ type => truncate ⟨0⟩ type
  | typeCast _ type => typeCast ⟨0⟩ type
  | readReg reg type => readReg reg type
  | readRegFile _ file type => readRegFile ⟨0⟩ file type
  | readMem _ mem words type => readMem ⟨0⟩ mem words type
  | writeReg _ _ reg => writeReg ⟨0⟩ none reg
  | writeRegFile _ _ _ file => writeRegFile ⟨0⟩ ⟨0⟩ none file
  | writeMem _ _ _ mem words => writeMem ⟨0⟩ ⟨0⟩ none mem words

/-- The type a payload declares is part of its data. -/
theorem declaredType_bare (payload : Payload) :
    payload.bare.declaredType = payload.declaredType := by
  cases payload <;> rfl

theorem length_assignList :
    ∀ (given : List (Option NodeId)) (targets : List NodeId),
      (assignList given targets).length = targets.length
  | _, [] => by simp [assignList]
  | [], _ :: _ => by simp [assignList]
  | _ :: rest, _ :: targets => by simp [assignList, length_assignList rest targets]

theorem bare_assignInputs (given : List (Option NodeId)) (payload : Payload) :
    (payload.assignInputs given).bare = payload.bare := by
  cases payload <;> simp [assignInputs, bare, length_assignList]

theorem bare_assignSuccessors (given : List (Option NodeId)) (payload : Payload) :
    (payload.assignSuccessors given).bare = payload.bare := by
  cases payload <;> rfl

/-- A payload is its bare payload with its targets put back. -/
theorem assign_bare (payload : Payload) :
    (payload.bare.assignInputs payload.inputs).assignSuccessors payload.successors = payload := by
  have hlist : ∀ targets : List NodeId,
      assignList (targets.map some) (targets.map fun _ => ⟨0⟩) = targets :=
    fun targets => (assignList_map id (fun _ => ⟨0⟩) targets).trans (List.map_id targets)
  cases payload <;>
    simp [bare, assignInputs, assignSuccessors, inputs, successors, inputSlots, successorSlots,
      Slot.required, Slot.maybe, assignRequired, assignOptional, Function.comp_def,
      -List.map_const', hlist]

/-- **Payloads that differ in no target and are the same without them are the same.** -/
theorem eq_of_bare (hbare : payload.bare = found.bare) (hinputs : payload.inputs = found.inputs)
    (hsuccessors : payload.successors = found.successors) : payload = found :=
  calc payload
      = (payload.bare.assignInputs payload.inputs).assignSuccessors payload.successors :=
        payload.assign_bare.symm
    _ = (found.bare.assignInputs found.inputs).assignSuccessors found.successors := by
        rw [hbare, hinputs, hsuccessors]
    _ = found := found.assign_bare

/-! ## 3. The laws -/

/-- **One sort of slots is a lawful view of a payload.**  `slots` reads the sort, `assign`
overwrites its targets by position, and `others` reads the other sort. -/
structure Viewed (slots others : Payload → List Slot)
    (assign : List (Option NodeId) → Payload → Payload) (payload : Payload) : Prop where
  /-- As many targets as there are slots, set wherever they have to be, are read back. -/
  reads : ∀ given, List.Forall₂ Slot.Takes (slots payload) given →
    (slots (assign given payload)).map Slot.target = given
  /-- Targets that are assigned back change nothing. -/
  restores : assign ((slots payload).map Slot.target) payload = payload
  /-- The second of two assignments counts. -/
  overwrites : ∀ first second, List.Forall₂ Slot.Takes (slots payload) second →
    assign second (assign first payload) = assign second payload
  /-- The slots stay as many as they are, with their names, families and whether they may be empty.
  -/
  shapes : ∀ given, (slots (assign given payload)).map Slot.shape = (slots payload).map Slot.shape
  /-- The other sort stays. -/
  others : ∀ given, others (assign given payload) = others payload
  /-- Kind, data and the lengths of lists stay. -/
  bare : ∀ given, (assign given payload).bare = payload.bare
  /-- The declared type stays. -/
  declaredType : ∀ given, (assign given payload).declaredType = payload.declaredType
  /-- A slot that is given a target it takes has that target then. -/
  taken : ∀ (given : List (Option NodeId)) (place : Nat) (slot : Slot) (target : Option NodeId),
    (slots payload)[place]? = some slot → given[place]? = some target → slot.Takes target →
      (slots (assign given payload))[place]? = some (slot.withTarget target)
  /-- A slot behind the given targets stays. -/
  behind : ∀ (given : List (Option NodeId)) (place : Nat), given.length ≤ place →
    (slots (assign given payload))[place]? = (slots payload)[place]?
  /-- A required slot that is given nothing stays. -/
  required : ∀ (given : List (Option NodeId)) (place : Nat) (slot : Slot),
    (slots payload)[place]? = some slot →
    slot.optional = false → given[place]? = some none →
      (slots (assign given payload))[place]? = some slot
  /-- Targets behind the slots are ignored. -/
  surplus : ∀ given more, (slots payload).length ≤ given.length →
    assign (given ++ more) payload = assign given payload

/-- An assignment that the slots take changes nothing exactly if they have these targets. -/
theorem Viewed.assign_eq_self_iff {slots others : Payload → List Slot}
    {assign : List (Option NodeId) → Payload → Payload} (h : Viewed slots others assign payload)
    (htakes : List.Forall₂ Slot.Takes (slots payload) given) :
    assign given payload = payload ↔ given = (slots payload).map Slot.target := by
  constructor
  · intro hself
    exact (h.reads given htakes).symm.trans (by rw [hself])
  · rintro rfl
    exact h.restores

section Slotwise

variable {slots others : Payload → List Slot} {assign : List (Option NodeId) → Payload → Payload}

/-- Targets that the slots take are the targets then. -/
theorem map_target_of_takes {slots : List Slot} (h : List.Forall₂ Slot.Takes slots given) :
    (slots.mapIdx fun place slot => slot.assign given[place]?).map Slot.target = given := by
  obtain ⟨hlen, htakes⟩ := List.forall₂_iff_zip.mp h
  rw [mapIdx_assign_of_takes hlen fun change hchange => htakes hchange, List.map_map]
  exact List.map_snd_zip (Nat.le_of_eq hlen.symm)

/-- Slots of the same shapes take the same targets. -/
theorem forall₂_takes_congr {slots slots' : List Slot}
    (h : slots'.map Slot.shape = slots.map Slot.shape)
    (htakes : List.Forall₂ Slot.Takes slots given) :
    List.Forall₂ Slot.Takes slots' given := by
  induction htakes generalizing slots' with
  | nil =>
    obtain rfl := List.map_eq_nil_iff.mp h
    exact .nil
  | cons hfirst _ ih =>
    obtain ⟨slot', rest', rfl, hshape, hrest⟩ := List.map_eq_cons_iff.mp h
    exact .cons ((Slot.takes_congr hshape _).mpr hfirst) (ih hrest)

/-- **The laws follow if assigning acts on each slot by itself**, keeps the other sort and the bare
payload, and these with the targets make the payload. -/
theorem Viewed.of_slotwise
    (hslots : ∀ payload (given : List (Option NodeId)), slots (assign given payload)
      = (slots payload).mapIdx fun place slot => slot.assign given[place]?)
    (hothers : ∀ payload given, others (assign given payload) = others payload)
    (hbare : ∀ payload given, (assign given payload).bare = payload.bare)
    (hlegal : ∀ payload, ∀ slot ∈ slots payload, slot.Legal)
    (hext : ∀ {payload found : Payload}, payload.bare = found.bare → others payload = others found →
      (slots payload).map Slot.target = (slots found).map Slot.target → payload = found)
    (payload : Payload) : Viewed slots others assign payload := by
  have hshapes : ∀ given, (slots (assign given payload)).map Slot.shape
      = (slots payload).map Slot.shape := by
    intro given
    rw [hslots]
    refine List.ext_getElem? fun place => ?_
    simp only [List.getElem?_map, List.getElem?_mapIdx]
    cases (slots payload)[place]? <;> rfl
  have hplace : ∀ (given : List (Option NodeId)) (place : Nat),
    (slots (assign given payload))[place]?
      = ((slots payload)[place]?).map fun slot => slot.assign given[place]? := by
    intro given place
    rw [hslots, List.getElem?_mapIdx]
  have hreads : ∀ {payload given}, List.Forall₂ Slot.Takes (slots payload) given →
      (slots (assign given payload)).map Slot.target = given := by
    intro payload given htakes
    rw [hslots]
    exact map_target_of_takes htakes
  constructor
  case reads => exact fun given => hreads
  case restores =>
    refine hext (hbare payload _) (hothers payload _) (hreads ?_)
    rw [List.forall₂_map_right_iff, List.forall₂_same]
    exact hlegal payload
  case overwrites =>
    intro first second htakes
    refine hext ?_ ?_ ?_
    · rw [hbare, hbare, hbare]
    · rw [hothers, hothers, hothers]
    · rw [hreads (forall₂_takes_congr (hshapes first) htakes), hreads htakes]
  case shapes => exact hshapes
  case others => exact hothers payload
  case bare => exact hbare payload
  case declaredType =>
    intro given
    rw [← declaredType_bare, hbare, declaredType_bare]
  case taken =>
    intro given place slot target hslot htarget htakes
    rw [hplace, hslot, htarget, Option.map_some, Slot.assign_of_takes htakes]
  case behind =>
    intro given place hle
    rw [hplace, List.getElem?_eq_none hle]
    simp
  case required =>
    intro given place slot hslot hrequired hnone
    rw [hplace, hslot, hnone, Option.map_some, Slot.assign_unset hrequired]
  case surplus =>
    intro given more hle
    refine hext ?_ ?_ ?_
    · rw [hbare, hbare]
    · rw [hothers, hothers]
    · refine congrArg (List.map Slot.target) (List.ext_getElem? fun place => ?_)
      rw [hplace, hplace]
      cases hslot : (slots payload)[place]? with
      | none => rfl
      | some slot =>
        obtain ⟨hlt, -⟩ := List.getElem?_eq_some_iff.mp hslot
        rw [List.getElem?_append_left (by omega)]

end Slotwise

/-- **Inputs are a lawful view.** -/
theorem viewed_inputs (payload : Payload) :
    Viewed inputSlots successorSlots assignInputs payload := by
  refine Viewed.of_slotwise inputSlots_assignInputs successorSlots_assignInputs
    (fun payload given => bare_assignInputs given payload) legal_of_mem_inputSlots ?_ payload
  intro payload found hbare hsuccessors hinputs
  exact eq_of_bare hbare hinputs (congrArg (List.map Slot.target) hsuccessors)

/-- **Successors are a lawful view.** -/
theorem viewed_successors (payload : Payload) :
    Viewed successorSlots inputSlots assignSuccessors payload := by
  refine Viewed.of_slotwise successorSlots_assignSuccessors inputSlots_assignSuccessors
    (fun payload given => bare_assignSuccessors given payload)
      legal_of_mem_successorSlots ?_ payload
  intro payload found hbare hinputs hsuccessors
  exact eq_of_bare hbare (congrArg (List.map Slot.target) hinputs) hsuccessors

theorem inputs_assignInputs (hlen : payload.inputSlots.length = given.length)
    (htakes : ∀ change ∈ payload.inputSlots.zip given, change.1.Takes change.2) :
    (payload.assignInputs given).inputs = given :=
  payload.viewed_inputs.reads given (List.forall₂_iff_zip.mpr ⟨hlen, fun hin => htakes _ hin⟩)

theorem successors_assignSuccessors (hlen : payload.successorSlots.length = given.length)
    (htakes : ∀ change ∈ payload.successorSlots.zip given, change.1.Takes change.2) :
    (payload.assignSuccessors given).successors = given :=
  payload.viewed_successors.reads given (List.forall₂_iff_zip.mpr ⟨hlen, fun hin => htakes _ hin⟩)

/-- **Both sorts of slots are lawful views of every payload**, the edges are the targets that are
set, those of the inputs first, and a payload has nothing but its targets, its kind and its data.
-/
theorem slots_lawful (payload : Payload) :
    Viewed inputSlots successorSlots assignInputs payload ∧
    Viewed successorSlots inputSlots assignSuccessors payload ∧
    payload.edges = payload.inputs.filterMap id ++ payload.successors.filterMap id ∧
    ∀ found : Payload, found.bare = payload.bare → found.inputs = payload.inputs →
      found.successors = payload.successors → found = payload := by
  refine ⟨payload.viewed_inputs, payload.viewed_successors, ?_, fun found => eq_of_bare⟩
  rw [edges, slots, List.filterMap_append, inputs, successors, List.filterMap_map,
    List.filterMap_map]
  rfl

/-- A conditional write to a register file: two required slots, then one that may be empty. -/
theorem slots_lawful_conditionalWrite :
    let write := writeRegFile ⟨1⟩ ⟨2⟩ none "X"
    (write.assignInputs [some ⟨5⟩, some ⟨6⟩, some ⟨7⟩]).inputs = [some ⟨5⟩, some ⟨6⟩, some ⟨7⟩] ∧
    ((write.assignInputs [some ⟨5⟩, none, some ⟨7⟩]).assignInputs [some ⟨3⟩, some ⟨4⟩, none])
      = writeRegFile ⟨3⟩ ⟨4⟩ none "X" ∧
    (write.assignInputs [some ⟨5⟩, none]).inputSlots[1]? = some (.required "value" .value ⟨2⟩) := by
  intro write
  have hlawful := (slots_lawful write).1
  refine ⟨hlawful.reads _ ?_, ?_, hlawful.required _ 1 _ rfl rfl rfl⟩
  · exact .cons (.inr rfl) (.cons (.inr rfl) (.cons (.inl rfl) .nil))
  · refine (hlawful.overwrites _ _ ?_).trans rfl
    exact .cons (.inr rfl) (.cons (.inr rfl) (.cons (.inl rfl) .nil))

end Payload

end BehaviorGraph
