/-
# Evaluating the values of a graph

Given constants for its leaves, every value of a graph comes to a constant: operations are
evaluated as they are on constants, a choice picks one of its cases, and a binding comes to what it
names.  Leaves are the parameters and fields, each a constant of its name and type, and the nodes
whose value the graph does not determine: calls of functions and readings of the state of the
machine.

What a cast comes to is left open (`evaluating`), since that is where two ways to evaluate a graph
will differ.  `Assignment.eval` evaluates a cast as it is on constants.

Main statement: **every value of a graph that observes the rules of its kinds comes to a constant**
(`evaluates`).
-/
import BehaviorGraph.Pass.ConstantFolding
import BehaviorGraph.Proofs.Rules

namespace BehaviorGraph

/-! ## 1. Evaluation -/

/-- The constants of a type. -/
abbrev Constant.At (type : ValueType) : Type := { c : Constant // c.type = type }

/-- **Constants for the leaves of a graph**, each of the type the leaf declares. -/
structure Assignment where
  param : String → (type : ValueType) → Constant.At type
  field : String → (type : ValueType) → Constant.At type
  /-- For a node whose value does not follow from what it reads. -/
  node : NodeId → (type : ValueType) → Constant.At type

/-- What the cast of a node makes of a constant at a type. -/
abbrev Casting := NodeId → Constant → ValueType → Constant

/-- What a payload comes to, from what its inputs come to. -/
def evalStep (ρ : Assignment) (cast : Casting) (id : NodeId) (payload : Payload)
    (read : NodeId → Option Constant) : Option Constant :=
  match payload with
  | .const constant => some constant
  | .param name type => some (ρ.param name type).val
  | .field name type => some (ρ.field name type).val
  | .funcCall _ _ type | .readReg _ type | .readRegFile _ _ type | .readMem _ _ _ type =>
    some (ρ.node id type).val
  | .binding value _ => read value
  | .builtInCall args op type => (args.mapM read).bind fun values => op.eval values type
  | .select condition trueCase falseCase _ =>
    (read condition).bind fun c => if c.isZero then read falseCase else read trueCase
  | .slice value high low type => (read value).bind fun c => c.slice? high low type
  | .zeroExtend value type => (read value).map fun c => ConstantFolding.zeroExtend c type
  | .signExtend value type => (read value).map fun c => ConstantFolding.signExtend c type
  | .truncate value type => (read value).map fun c => c.castTo type
  | .typeCast value type => (read value).map fun c => cast id c type
  | _ => none

/-- The rules of evaluation, with casts as given. -/
def evaluating (ρ : Assignment) (cast : Casting) : Interpretation Constant where
  step := evalStep ρ cast
  step_mapEdges := by
    intro id payload f read read' h
    cases payload with
    | builtInCall args op type =>
      have hargs : (args.map f).mapM read' = args.mapM read :=
        mapM_map_congr fun target htarget => h target
          (Payload.mem_inputEdges_builtInCall.mpr htarget)
      rw [Payload.mapEdges_builtInCall]
      simp only [evalStep, hargs]
    | select condition trueCase falseCase type =>
      have hcondition := h condition (by simp)
      have htrue := h trueCase (by simp)
      have hfalse := h falseCase (by simp)
      show evalStep ρ cast id (.select (f condition) (f trueCase) (f falseCase) type) read' = _
      simp only [evalStep, hcondition, htrue, hfalse]
    | binding value _ | slice value _ _ _ | zeroExtend value _ | signExtend value _
    | truncate value _ | typeCast value _ =>
      have hvalue := h value (Payload.value_mem_inputEdges rfl)
      simp only [Payload.mapEdges, Payload.assignInputs, Payload.assignSuccessors, Payload.inputs,
        Payload.inputSlots, Slot.required, Payload.assignRequired, List.map_cons, List.map_nil,
        Option.map_some, List.getElem?_cons_zero, evalStep, hvalue]
    | _ => rfl

/-- **What a node comes to under an assignment**, casts evaluated as they are on constants. -/
def Assignment.eval (ρ : Assignment) (g : Graph) (id : NodeId) : Option Constant :=
  (evaluating ρ fun _ => ConstantFolding.convert).value g id

namespace Graph

variable {g : Graph} {id : NodeId} {payload : Payload} {rank : NodeId → Nat} {ρ : Assignment}
  {cast : Casting}

theorem eval_eq_step (h : g.Kept) (hranked : g.Ranked rank)
    (hmember : g.member? id = some payload) :
    (evaluating ρ cast).value g id = evalStep ρ cast id payload ((evaluating ρ cast).value g) :=
  Interpretation.value_eq_step h hranked hmember

/-! ## 2. Every value comes to a constant -/

/-- Types are held in 32 bits. -/
def Sized (g : Graph) : Prop :=
  ∀ {id payload type}, g.member? id = some payload → payload.declaredType = some type →
    type.width < Constant.widthLimit

/-- In a graph without complaints about its kinds every member obeys. -/
theorem lawful_of_checkKinds (h : g.checkKinds = .empty) : g.Lawful :=
  checkKinds_errors_eq_nil_iff.mp (congrArg Diagnostics.errors h)

theorem checkKinds_of_checkConsistency (h : g.checkConsistency.hasErrors = false) :
    g.checkKinds = .empty := by
  have herrors : g.checkConsistency.errors = [] := by simpa [Diagnostics.hasErrors] using h
  obtain ⟨-, hkinds⟩ := List.append_eq_nil_iff.mp herrors
  exact congrArg Diagnostics.ofErrors hkinds

/-- An operation with as many arguments as it takes yields a constant. -/
theorem exists_eval_of_arity {op : BuiltIn} {values : List Constant} (h : values.length = op.arity)
    (type : ValueType) : ∃ c, op.eval values type = some c ∧ c.type = type := by
  cases op <;>
    first
    | obtain ⟨a, rfl⟩ := List.length_eq_one_iff.mp h
      exact ⟨_, rfl, rfl⟩
    | obtain ⟨a, b, rfl⟩ := List.length_eq_two.mp h
      exact ⟨_, rfl, rfl⟩

/-- An operation with more or fewer yields nothing. -/
theorem eval_of_ne_arity {op : BuiltIn} {values : List Constant} {type : ValueType}
    (h : values.length ≠ op.arity) : op.eval values type = none := by
  match values, h with
  | [], _ => rfl
  | [a], h => cases op <;> first | rfl | exact absurd rfl h
  | [a, b], h => cases op <;> first | rfl | exact absurd rfl h
  | _ :: _ :: _ :: _, _ => rfl

/-- What has to be this wide has a type of this width. -/
theorem width_of_fits {target : NodeId} {width : Nat} {found : ValueType}
    (h : Payload.Fits g.widthOf target (· = width)) (htype : g.typeOf target = some found) :
    found.width = width :=
  h found.width (by rw [widthOf, htype, Option.map_some])

/-- A slice of as many bits as its type has yields a constant. -/
theorem exists_slice? {high low : Nat} {type : ValueType} (hwidth : type.width = high - low + 1)
    (hsized : type.width < Constant.widthLimit) (c : Constant) :
    ∃ sliced, c.slice? high low type = some sliced ∧ sliced.type = type := by
  have hcount : Constant.sliceWidth? high low = some (high - low + 1) := by
    rw [Constant.sliceWidth?]
    exact if_pos (hwidth ▸ hsized)
  rw [Constant.slice?, hcount]
  exact ⟨_, rfl, rfl⟩

/-- **Folding fails exactly on a slice of a constant whose bits are too many to be counted in 32
bits.** -/
theorem foldPayload_eq_none_iff : ConstantFolding.foldPayload g payload = none ↔
    ∃ value high low type c, payload = .slice value high low type ∧ g.constantOf value = some c ∧
      Constant.widthLimit ≤ high - low + 1 := by
  constructor
  · intro hnone
    cases payload with
    | select condition trueCase falseCase type =>
      simp only [ConstantFolding.foldPayload] at hnone
      split at hnone <;> exact absurd hnone (by simp)
    | slice value high low type =>
      simp only [ConstantFolding.foldPayload] at hnone
      split at hnone
      · rename_i c hconstant
        refine ⟨value, high, low, type, c, rfl, hconstant, Nat.le_of_not_lt fun hlt => ?_⟩
        rw [Constant.slice?, Constant.sliceWidth?, if_pos hlt] at hnone
        exact absurd hnone (by simp)
      · exact absurd hnone (by simp)
    | _ => exact absurd hnone (by simp [ConstantFolding.foldPayload])
  · rintro ⟨value, high, low, type, c, rfl, hconstant, hlimit⟩
    rw [ConstantFolding.foldPayload, hconstant]
    simp only [Constant.slice?, Constant.sliceWidth?, if_neg (Nat.not_lt.mpr hlimit)]
    rfl

/-- So it does not fail on a payload that obeys. -/
theorem foldPayload_ne_none (hobeys : payload.Obeys g.widthOf g.kind?)
    (hsized : ∀ type, payload.declaredType = some type → type.width < Constant.widthLimit) :
    ConstantFolding.foldPayload g payload ≠ none := by
  intro hnone
  obtain ⟨value, high, low, type, c, rfl, -, hlimit⟩ := foldPayload_eq_none_iff.mp hnone
  have hwidth : type.width = high - low + 1 := hobeys.2.2
  have hlt := hsized type rfl
  omega

/-- What casts make of constants has the width of the type they are cast to. -/
def CastsFit (g : Graph) (cast : Casting) : Prop :=
  ∀ {id value type}, g.member? id = some (.typeCast value type) → ∀ {c source},
    g.typeOf value = some source → c.type.width = source.width →
      (cast id c type).type.width = type.width

/-- A node comes to a constant of the width of its type. -/
def Evaluates (g : Graph) (ρ : Assignment) (cast : Casting) (id : NodeId) : Prop :=
  ∃ c type, (evaluating ρ cast).value g id = some c ∧ g.typeOf id = some type ∧
    c.type.width = type.width

/-- **Every value comes to a constant of the width of its type**, if the members observe the rules
of their kinds and casts fit. -/
theorem evaluates (h : g.Kept) (hranked : g.Ranked rank) (hkinds : g.checkKinds = .empty)
    (hsized : g.Sized) (hcast : g.CastsFit cast) (hmember : g.member? id = some payload)
    (hvalue : payload.kind.isA .value = true) : g.Evaluates ρ cast id := by
  refine hranked.induct h (P := fun id => ∀ payload, g.member? id = some payload →
    payload.kind.isA .value = true → g.Evaluates ρ cast id) ?_ hmember payload hmember hvalue
  intro id payload hmember ih found hfound hkind
  rw [hmember] at hfound
  obtain rfl := Option.some.inj hfound
  have hreads : ∀ target ∈ payload.inputEdges, g.Evaluates ρ cast target := by
    intro target htarget
    obtain ⟨found, hfound, hkind'⟩ := h.value_of_mem_inputEdges hmember hkind htarget
    exact ih target htarget found hfound hkind'
  have hobeys := lawful_of_checkKinds hkinds hmember
  unfold Evaluates
  rw [eval_eq_step h hranked hmember, typeOf_eq h hranked hmember]
  cases payload with
  | const constant => exact ⟨constant, constant.type, rfl, rfl, rfl⟩
  | param name type =>
    exact ⟨_, type, rfl, rfl, congrArg ValueType.width (ρ.param name type).property⟩
  | field name type =>
    exact ⟨_, type, rfl, rfl, congrArg ValueType.width (ρ.field name type).property⟩
  | funcCall _ _ type | readReg _ type | readRegFile _ _ type | readMem _ _ _ type =>
    exact ⟨_, type, rfl, rfl, congrArg ValueType.width (ρ.node id type).property⟩
  | binding value name => exact hreads value (Payload.value_mem_inputEdges rfl)
  | builtInCall args op type =>
    obtain ⟨values, hvalues, hlength⟩ := exists_mapM fun target (htarget : target ∈ args) => by
      obtain ⟨c, -, hc, -⟩ := hreads target (Payload.mem_inputEdges_builtInCall.mpr htarget)
      exact ⟨c, hc⟩
    obtain ⟨c, hc, htype⟩ := exists_eval_of_arity (hlength.trans hobeys) type
    exact ⟨c, type, by rw [evalStep, hvalues]; exact hc, rfl, congrArg ValueType.width htype⟩
  | select condition trueCase falseCase type =>
    obtain ⟨-, htrueCase, hfalseCase⟩ := hobeys
    obtain ⟨c, -, hc, -⟩ := hreads condition (by simp)
    obtain ⟨yes, yesType, hyes, hyesType, hyesWidth⟩ := hreads trueCase (by simp)
    obtain ⟨no, noType, hno, hnoType, hnoWidth⟩ := hreads falseCase (by simp)
    refine ⟨if c.isZero then no else yes, type, ?_, rfl, ?_⟩
    · rw [evalStep, hc, Option.bind_some, hyes, hno]
      split <;> rfl
    · split
      · exact hnoWidth.trans (width_of_fits hfalseCase hnoType)
      · exact hyesWidth.trans (width_of_fits htrueCase hyesType)
  | slice value high low type =>
    obtain ⟨c, -, hc, -⟩ := hreads value (Payload.value_mem_inputEdges rfl)
    obtain ⟨sliced, hsliced, htype⟩ := exists_slice? hobeys.2.2 (hsized hmember rfl) c
    exact ⟨sliced, type, by rw [evalStep, hc, Option.bind_some, hsliced], rfl,
      congrArg ValueType.width htype⟩
  | zeroExtend value type | signExtend value type | truncate value type =>
    obtain ⟨c, -, hc, -⟩ := hreads value (Payload.value_mem_inputEdges rfl)
    exact ⟨_, type, by rw [evalStep, hc]; rfl, rfl, rfl⟩
  | typeCast value type =>
    obtain ⟨c, source, hc, hsource, hwidth⟩ :=
      hreads value (Payload.value_mem_inputEdges rfl)
    exact ⟨cast id c type, type, by rw [evalStep, hc]; rfl, rfl, hcast hmember hsource hwidth⟩
  | _ => exact Bool.noConfusion hkind

end Graph

end BehaviorGraph
