/-
# Folding constants

What becomes of a node when constants are folded is what the node comes to, whatever constants its
leaves are given (`eval_of_foldPayload`).  So one visit gives a value up for another that comes to
the same (`visitStep_folded`), and the whole pass changes nothing that a member reads
(`Reachable.folding_keeps_values`).

Leaves are given constants of any type here (`Leaves`), not only of the type they declare: nothing
that is folded looks at a leaf.

`Graph.Folded` has the three things a visit may do, and is all that the rest of the development
knows of one; `visitDefinition_folds` carries whatever these three keep to the end of the pass.
-/
import BehaviorGraph.Proofs.Evaluation
import BehaviorGraph.Proofs.Rewriting
import BehaviorGraph.Proofs.Visiting

namespace BehaviorGraph

open ConstantFolding

/-! ## 1. Leaves -/

/-- **A constant for every leaf of a graph**: for parameters and fields by name and type, for calls
and readings by node. -/
structure Leaves where
  param : String → ValueType → Constant
  field : String → ValueType → Constant
  node : NodeId → Constant

/-- An assignment of zeros. -/
def Assignment.zero : Assignment where
  param _ type := ⟨Constant.ofInt 0 type, rfl⟩
  field _ type := ⟨Constant.ofInt 0 type, rfl⟩
  node _ type := ⟨Constant.ofInt 0 type, rfl⟩

namespace Leaves

/-- What a payload comes to.  Leaves apart it is what evaluation says, where the assignment does not
matter. -/
def step (leaves : Leaves) (id : NodeId) (payload : Payload) (read : NodeId → Option Constant) :
    Option Constant :=
  match payload with
  | .param name type => some (leaves.param name type)
  | .field name type => some (leaves.field name type)
  | .funcCall _ _ _ | .readReg _ _ | .readRegFile _ _ _ | .readMem _ _ _ _ => some (leaves.node id)
  | payload => evalStep .zero (fun _ => convert) id payload read

/-- The rules of evaluation with these leaves. -/
def evaluation (leaves : Leaves) : Interpretation Constant where
  step := leaves.step
  step_mapEdges := by
    intro id payload f read read' h
    have heval := (evaluating .zero fun _ => convert).step_mapEdges id payload f read read' h
    cases payload with
    | param _ _ | field _ _ | funcCall _ _ _ | readReg _ _ | readRegFile _ _ _
    | readMem _ _ _ _ => rfl
    | _ => exact heval

/-- **What a node comes to with these leaves.** -/
def eval (leaves : Leaves) (g : Graph) (id : NodeId) : Option Constant :=
  leaves.evaluation.value g id

/-- A node comes to what becomes of it, if anything does. -/
def Respects (leaves : Leaves) (g : Graph) (id : NodeId) : Fold → Prop
  | .keep => True
  | .constant c => leaves.eval g id = some c
  | .node chosen => leaves.eval g id = leaves.eval g chosen

end Leaves

namespace Graph

variable {g g' : Graph} {id new : NodeId} {payload : Payload} {rank : NodeId → Nat}
  {leaves : Leaves}

/-! ## 2. What becomes of a payload -/

/-- A node that stands for a constant, if only by name, comes to it, by induction on what a chain
of bindings reads. -/
theorem eval_of_constantOf (h : g.Kept) (hranked : g.Ranked rank)
    (hmember : g.member? id = some payload) {c : Constant} (hconstant : g.constantOf id = some c) :
    leaves.eval g id = some c := by
  refine hranked.induct h (P := fun id => ∀ c, g.constantOf id = some c → leaves.eval g id = some c)
    ?_ hmember c hconstant
  intro id payload hmember ih c hconstant
  rw [Leaves.eval, Interpretation.value_eq_step h hranked hmember]
  by_cases hbinding : ∃ value name, payload = .binding value name
  · obtain ⟨value, name, rfl⟩ := hbinding
    rw [constantOf, origin_binding h hranked hmember] at hconstant
    exact ih value (Payload.value_mem_inputEdges rfl) c hconstant
  · have horigin := origin_of_ne_binding hmember fun value name heq => hbinding ⟨value, name, heq⟩
    rw [constantOf, horigin, payload?_of_member? hmember] at hconstant
    cases payload with
    | const constant => exact hconstant
    | _ => exact absurd hconstant (by simp)

/-- Arguments that are all constants come to them. -/
theorem mapM_eval {args : List NodeId} {values : List Constant}
    (h : ∀ target ∈ args, ∀ c, g.constantOf target = some c → leaves.eval g target = some c)
    (hvalues : args.mapM g.constantOf = some values) : args.mapM (leaves.eval g) = some values := by
  induction args generalizing values with
  | nil => exact hvalues
  | cons arg args ih =>
    rw [List.mapM_cons] at hvalues ⊢
    obtain ⟨c, hc, hrest⟩ := Option.bind_eq_some_iff.mp hvalues
    obtain ⟨rest, hvalues', hcons⟩ := Option.bind_eq_some_iff.mp hrest
    rw [h arg (by simp) c hc, ih (fun target htarget => h target (List.mem_cons_of_mem arg htarget))
      hvalues']
    exact hcons

/-- **What becomes of a member is what the member comes to.** -/
theorem eval_of_foldPayload (h : g.Kept) (hranked : g.Ranked rank)
    (hmember : g.member? id = some payload) {fold : Fold}
    (hfold : foldPayload g payload = some fold) : leaves.Respects g id fold := by
  have hread : ∀ target ∈ payload.inputEdges, ∀ c, g.constantOf target = some c →
      leaves.eval g target = some c := by
    intro target htarget c hc
    obtain ⟨found, hfound⟩ := h.member?_of_mem_inputEdges hmember htarget
    exact eval_of_constantOf h hranked hfound hc
  have heval : leaves.eval g id = leaves.step id payload (leaves.eval g) :=
    Interpretation.value_eq_step h hranked hmember
  -- Kind by kind: the operands stand for constants and come to them, so evaluating the node
  -- computes what was folded.
  cases payload with
  | builtInCall args op type =>
    obtain rfl := Option.some.inj hfold
    cases hargs : (args.mapM g.constantOf).bind fun values => op.eval values type with
    | none => trivial
    | some c =>
      obtain ⟨values, hvalues, hc⟩ := Option.bind_eq_some_iff.mp hargs
      have hknown : args.mapM (leaves.eval g) = some values := by
        refine mapM_eval (fun target htarget => ?_) hvalues
        exact hread target (Payload.mem_inputEdges_builtInCall.mpr htarget)
      show leaves.eval g id = some c
      rw [heval]
      show ((args.mapM (leaves.eval g)).bind fun values => op.eval values type) = some c
      rw [hknown]
      exact hc
  | select condition trueCase falseCase type =>
    simp only [foldPayload] at hfold
    cases hcondition : g.constantOf condition with
    | none =>
      rw [hcondition] at hfold
      obtain rfl := Option.some.inj hfold
      trivial
    | some c =>
      rw [hcondition] at hfold
      obtain rfl := Option.some.inj hfold
      have hknown := hread condition (by simp) c hcondition
      show leaves.eval g id = leaves.eval g (if c.isZero then falseCase else trueCase)
      rw [heval]
      show ((leaves.eval g condition).bind fun c =>
        if c.isZero then leaves.eval g falseCase else leaves.eval g trueCase) = _
      rw [hknown, Option.bind_some]
      split <;> rfl
  | slice value high low type =>
    simp only [foldPayload] at hfold
    cases hvalue : g.constantOf value with
    | none =>
      rw [hvalue] at hfold
      obtain rfl := Option.some.inj hfold
      trivial
    | some c =>
      rw [hvalue] at hfold
      obtain ⟨sliced, hsliced, rfl⟩ := Option.map_eq_some_iff.mp hfold
      have hknown := hread value (Payload.value_mem_inputEdges rfl) c hvalue
      show leaves.eval g id = some sliced
      rw [heval]
      show ((leaves.eval g value).bind fun c => c.slice? high low type) = some sliced
      rw [hknown, Option.bind_some, hsliced]
  | zeroExtend value type | signExtend value type | truncate value type | typeCast value type =>
    obtain rfl := Option.some.inj hfold
    cases hvalue : g.constantOf value with
    | none => trivial
    | some c =>
      have hknown := hread value (Payload.value_mem_inputEdges rfl) c hvalue
      show leaves.eval g id = some _
      rw [heval]
      show (leaves.eval g value).map _ = some _
      rw [hknown]
      rfl
  | _ =>
    obtain rfl := Option.some.inj hfold
    trivial

/-- A node that is chosen is one of those that are read. -/
theorem mem_inputEdges_of_foldPayload {chosen : NodeId}
    (hfold : foldPayload g payload = some (.node chosen)) : chosen ∈ payload.inputEdges := by
  have hconstant : ∀ {c : Option Constant}, Fold.ofConstant? c ≠ .node chosen := by
    intro c
    cases c <;> exact Fold.noConfusion
  cases payload with
  | select condition trueCase falseCase type =>
    simp only [foldPayload] at hfold
    cases hcondition : g.constantOf condition with
    | none =>
      rw [hcondition] at hfold
      exact Fold.noConfusion (Option.some.inj hfold)
    | some c =>
      rw [hcondition] at hfold
      obtain rfl := Fold.node.inj (Option.some.inj hfold)
      split <;> simp
  | slice value high low type =>
    simp only [foldPayload] at hfold
    cases hvalue : g.constantOf value with
    | none =>
      rw [hvalue] at hfold
      exact Fold.noConfusion (Option.some.inj hfold)
    | some c =>
      rw [hvalue] at hfold
      obtain ⟨sliced, -, heq⟩ := Option.map_eq_some_iff.mp hfold
      exact Fold.noConfusion heq
  | builtInCall _ _ _ | zeroExtend _ _ | signExtend _ _ | truncate _ _ | typeCast _ _ =>
    exact absurd (Option.some.inj hfold) hconstant
  | _ => exact Fold.noConfusion (Option.some.inj hfold)

/-! ## 3. One visit -/

/-- **What a visit makes of a graph**: the node stays, or it is given up for what becomes of it. -/
inductive Folded (g : Graph) (id : NodeId) (payload : Payload) (g' : Graph) : Prop where
  | keep (hfold : foldPayload g payload = some .keep) (hsame : g' = g)
  | node {chosen : NodeId} (hfold : foldPayload g payload = some (.node chosen))
    (h : g.Rewritten id chosen g')
    (honly : ∀ {other payload'}, g'.member? other = some payload' → g.member? other ≠ none)
  | constant {c : Constant} {new : NodeId} (hfold : foldPayload g payload = some (.constant c))
    (h : g.Rewritten id new g') (hnew : g'.member? new = some (.const c))
    (honly : ∀ {other payload'}, g'.member? other = some payload' → g.member? other = none →
      payload' = .const c)

/-- The value is exchanged for the node that is chosen. -/
theorem replace_chosen (h : g.Kept) (hranked : g.Ranked rank)
    (hmember : g.member? id = some payload)
    (hvalue : payload.kind.isA .value = true) {chosen : NodeId}
    (hfold : foldPayload g payload = some (.node chosen)) :
    (replace id chosen).Ends g fun r g' => (∃ member, r = .ok member) ∧ Folded g id payload g' := by
  have hin := mem_inputEdges_of_foldPayload hfold
  have hlt := hranked.falls hmember chosen hin
  obtain ⟨found, hfound, hkind⟩ := h.value_of_mem_inputEdges hmember hvalue hin
  -- The chosen case is read by the choice, so it ranks below.
  have hne : chosen ≠ id := by
    rintro rfl
    omega
  refine (replace_member h hranked hmember hvalue hfound hkind hne (by omega)).imp
    fun r g' hend => ?_
  obtain ⟨rfl, hexchanged, hranked'⟩ := hend
  have hrewritten := hexchanged.rewritten hranked' ⟨payload, hmember, hvalue⟩
  exact ⟨⟨_, rfl⟩, .node hfold hrewritten hexchanged.not_fresh⟩

/-- The value is exchanged for the constant that joined the graph.  As the constant reads nothing
it can be given the lowest rank, so the exchange is allowed. -/
theorem Joined.replace_constant {between : Graph} {c : Constant}
    (hjoined : g.Joined new (.const c) between) (hranked : g.Ranked rank)
    (hmember : g.member? id = some payload) (hvalue : payload.kind.isA .value = true)
    (hkind : payload.kind ≠ .const) (hfold : foldPayload g payload = some (.constant c)) :
    (replace id new).Ends between fun r g' =>
      (∃ member, r = .ok member) ∧ Folded g id payload g' := by
  have hmember' := hjoined.member? hmember
  have hne : new ≠ id := by
    rintro rfl
    rw [hjoined.new] at hmember'
    obtain rfl := Option.some.inj hmember'
    exact hkind rfl
  refine (replace_member hjoined.kept (hjoined.ranked hranked) hmember' hvalue hjoined.new rfl hne
    (by simp)).imp fun r g' hend => ?_
  obtain ⟨rfl, hexchanged, hranked'⟩ := hend
  have hrewritten := hjoined.rewritten
    (hexchanged.rewritten hranked' ⟨payload, hmember', hvalue⟩) ⟨payload, hmember, hvalue⟩
  refine ⟨⟨_, rfl⟩, .constant hfold hrewritten (hexchanged.member?_of_ne hne hjoined.new) ?_⟩
  intro other payload' hother hnone
  rw [hexchanged.member?] at hother
  split at hother
  · exact absurd hother (by simp)
  · obtain ⟨found, hfound, rfl⟩ := Option.map_eq_some_iff.mp hother
    rw [(hjoined.only hfound hnone).1]
    rfl

end Graph

namespace ConstantFolding

variable {v : VisitState Nat} {others : List Definition} {id : NodeId} {payload : Payload}
  {rank : NodeId → Nat}

/-- Nodes that can be folded are values and no constants. -/
theorem isValue_of_foldable (h : payload.kind ∈ foldable) :
    payload.kind.isA .value = true ∧ payload.kind ≠ .const := by
  revert h
  cases payload <;> simp [foldable, Payload.kind] <;> rfl

/-- Of other nodes nothing becomes. -/
theorem foldPayload_of_not_foldable (g : Graph) (h : payload.kind ∉ foldable) :
    foldPayload g payload = some .keep := by
  cases payload <;> first | rfl | exact absurd h (by simp [foldable, Payload.kind])

/-- There is a hook for the kinds that can be folded, one for all of them. -/
theorem hook_eq (payload : Payload) : payload.kind.hooks.findSome? pass.visitor.hook
    = if payload.kind ∈ foldable then some fun _ id => visit id else none := by
  cases payload <;> rfl

/-- A visit of a node of which nothing becomes changes nothing. -/
theorem visitStep_of_keep (hmember : v.definition.behavior.member? id = some payload)
    (hfold : foldPayload v.definition.behavior payload = some .keep) :
    (pass.visitor.visitStep others id).Ends v fun r v' => r = .ok true ∧ v' = v := by
  by_cases hkind : payload.kind ∈ foldable
  · rw [Visitor.visitStep, Run.ends_bind,
      ends_visitNode_of_hook hmember (by rw [hook_eq, if_pos hkind]), visit, Run.ends_bind,
      Visiting.graph, Run.ends_read]
    simp only [Graph.payload?_of_member? hmember, Option.map_some, hfold]
    exact ⟨rfl, rfl⟩
  · exact visitStep_of_none hmember (by rw [hook_eq, if_neg hkind]) ⟨rfl, rfl⟩

/-- **A visit folds the node**, unless a slice does not fit. -/
theorem visitStep_folded (h : v.definition.behavior.Kept)
    (hranked : v.definition.behavior.Ranked rank)
    (hmember : v.definition.behavior.member? id = some payload) :
    (pass.visitor.visitStep others id).Ends v fun r v' =>
      (r = .ok true ∧ Graph.Folded v.definition.behavior id payload v'.definition.behavior) ∨
      (r = .error (.halt .overflow) ∧ foldPayload v.definition.behavior payload = none ∧
        v'.definition.behavior = v.definition.behavior) := by
  by_cases hkind : payload.kind ∈ foldable
  · obtain ⟨hvalue, hconst⟩ := isValue_of_foldable hkind
    rw [Visitor.visitStep, Run.ends_bind,
      ends_visitNode_of_hook hmember (by rw [hook_eq, if_pos hkind]), visit, Run.ends_bind,
      Visiting.graph, Run.ends_read]
    simp only [Graph.payload?_of_member? hmember, Option.map_some]
    cases hfold : foldPayload v.definition.behavior payload with
    | none => exact Or.inr ⟨rfl, rfl, rfl⟩
    | some fold =>
      -- The answers of the visit, and for each the edit it leads to.
      cases fold with
      | keep => exact Or.inl ⟨rfl, .keep hfold rfl⟩
      | node chosen =>
        simp only
        rw [Run.ends_bind, Visiting.remember, Run.ends_update]
        simp only
        rw [Run.ends_pure]
        simp only
        rw [ends_onGraph]
        refine perform_change ?_
        refine (Graph.replace_chosen h hranked hmember hvalue hfold).imp fun r g' hend => ?_
        exact ⟨hend.1, Or.inl ⟨rfl, hend.2⟩⟩
      | constant c =>
        simp only
        rw [Run.ends_bind, Visiting.remember, Run.ends_update]
        simp only
        rw [Run.ends_bind, ends_edit]
        refine (Graph.add_joined h rfl).imp fun r between hend => ?_
        obtain ⟨new, rfl, hjoined⟩ := hend
        simp only [Except.mapError]
        rw [Run.ends_pure]
        simp only
        rw [ends_onGraph]
        refine perform_change ?_
        refine (hjoined.replace_constant hranked hmember hvalue hconst hfold).imp
          fun r g' hend => ?_
        exact ⟨hend.1, Or.inl ⟨rfl, hend.2⟩⟩
  · exact visitStep_of_none hmember (by rw [hook_eq, if_neg hkind])
      (Or.inl ⟨rfl, .keep (foldPayload_of_not_foldable _ hkind) rfl⟩)

/-- The nodes are visited in the order in which they read each other. -/
theorem orderNodes_eq_ok {g : Graph} (h : g.Kept) (hacyclic : g.Acyclic) :
    ∃ order, pass.visitor.orderNodes g = .ok order := by
  obtain ⟨order, horder, -⟩ := g.dataflowOrder_eq_ok h hacyclic
  exact ⟨order, congrArg (Except.mapError Abort.error) horder⟩

/-- **What every visit keeps, the pass keeps**, and only a slice that does not fit keeps it from
completing. -/
theorem visitDefinition_folds {P : Graph → Prop} {d : Definition}
    (hranked : ∀ {g}, P g → g.Kept ∧ ∃ rank, g.Ranked rank)
    (hstep : ∀ {g g' id payload rank}, P g → g.Ranked rank → g.member? id = some payload →
      g.Folded id payload g' → P g')
    (h : P d.behavior) (others : List Definition) (memory : Nat) :
    (pass.visitor.visitDefinition others).Ends ⟨memory, d⟩ fun r v =>
      P v.definition.behavior ∧ (r = .ok () ∨ r = .error (.halt .overflow) ∧
        ∃ id payload, v.definition.behavior.member? id = some payload ∧
          foldPayload v.definition.behavior payload = none) := by
  obtain ⟨hkept, rank, hrank⟩ := hranked h
  obtain ⟨order, horder⟩ := orderNodes_eq_ok hkept hrank.acyclic
  refine visitDefinition_of_nodes (Q := fun r d' => P d'.behavior ∧ (r = .ok () ∨
    r = .error (.halt .overflow) ∧ ∃ id payload, d'.behavior.member? id = some payload ∧
      foldPayload d'.behavior payload = none)) rfl horder
    (fun v => (Run.ends_count VisitState.memory _ _ _ _).mpr ⟨⟨_, rfl⟩, rfl⟩) ?_
  refine (visitNodes_keeps (P := fun v => P v.definition.behavior)
    (A := fun e v => e = .halt .overflow ∧ ∃ id payload,
      v.definition.behavior.member? id = some payload ∧
        foldPayload v.definition.behavior payload = none)
    ?_ order h).imp fun r v hend => ?_
  · intro v id payload hbefore hmember
    obtain ⟨hkept, rank, hrank⟩ := hranked hbefore
    refine (visitStep_folded hkept hrank hmember).imp fun r v' hend => ?_
    rcases hend with ⟨rfl, hfolded⟩ | ⟨rfl, hnone, hsame⟩
    · exact ⟨hstep hbefore hrank hmember hfolded, fun e he => absurd he (by simp)⟩
    · rw [hsame]
      exact ⟨hbefore, fun e he => ⟨(Except.error.inj he).symm, id, payload, hmember, hnone⟩⟩
  · refine ⟨hend.1, ?_⟩
    cases r with
    | ok value => exact Or.inl rfl
    | error e =>
      obtain ⟨rfl, hslice⟩ := hend.2 e rfl
      exact Or.inr ⟨rfl, hslice⟩

end ConstantFolding

/-! ## 4. The pass -/

namespace Graph

variable {g g' : Graph} {id : NodeId} {payload : Payload} {rank : NodeId → Nat}

/-- **A visit changes nothing that the members left read.** -/
theorem Folded.carried (hfolded : g.Folded id payload g') (h : g.Kept)
    (hranked : g.Ranked rank) (hmember : g.member? id = some payload) (leaves : Leaves) :
    Carried leaves.evaluation g g' := by
  -- Each time the point is that what stands for the node comes to what the node comes to.
  cases hfolded with
  | keep _ hsame =>
    rw [hsame]
    exact .refl _ h hranked
  | @node chosen hfold hrewritten _ =>
    have hsame : leaves.eval g id = leaves.eval g chosen :=
      eval_of_foldPayload h hranked hmember hfold
    have hin := mem_inputEdges_of_foldPayload hfold
    have hlt := hranked.falls hmember chosen hin
    obtain ⟨found, hfound⟩ := h.member?_of_mem_inputEdges hmember hin
    have hne : chosen ≠ id := by
      rintro rfl
      omega
    exact hrewritten.carried h hranked (hrewritten.standsFor h hranked hfound hne (by omega) hsame)
  | @constant c new hfold hrewritten hnew _ =>
    have hsame : leaves.eval g id = some c := eval_of_foldPayload h hranked hmember hfold
    obtain ⟨rank', hranked'⟩ := hrewritten.ranked
    have hconstant : leaves.eval g' new = some c :=
      Interpretation.value_eq_step hrewritten.kept hranked' hnew
    exact hrewritten.carried h hranked fun _ _ _ _ => hsame.trans hconstant.symm

/-- **Folding constants changes nothing that is read**: whatever constants the leaves are given,
the inputs of every node that is a member before and after come to what they came to before, slot
by slot, and those that came to nothing still do.  Nothing but a slice of too many bits can keep
the pass from completing. -/
theorem Reachable.folding_keeps_values {d : Definition} (h : d.behavior.Reachable)
    (hacyclic : d.behavior.Acyclic) (others : List Definition) (memory : Nat) (leaves : Leaves) :
    let o := ConstantFolding.pass.visitor.visitDefinition others ⟨memory, d⟩
    let g := d.behavior
    let g' := o.state.definition.behavior
    (o.result = .ok () ∨ o.result = .error (.halt .overflow)) ∧
    ∀ id, g.isActive id = true → g'.isActive id = true →
      (g'.inputs id).map (Option.map (leaves.eval g'))
        = (g.inputs id).map (Option.map (leaves.eval g)) := by
  have hkept := h.kept
  obtain ⟨rank, hranked⟩ := hacyclic.exists_ranked hkept
  have hstart : Carried leaves.evaluation d.behavior d.behavior := .refl _ hkept hranked
  obtain ⟨hcarried, hresult⟩ := visitDefinition_folds (P := Carried leaves.evaluation d.behavior)
    (fun hcarried => ⟨hcarried.kept, hcarried.ranked⟩)
    (fun hcarried hranked hmember hfolded =>
      hcarried.trans (hfolded.carried hcarried.kept hranked hmember leaves)) hstart others memory
  refine ⟨?_, fun id => hcarried.inputs_eq⟩
  rcases hresult with hok | ⟨hhalt, -⟩
  · exact Or.inl hok
  · exact Or.inr hhalt

/-- A function that adds its parameter to the sum of two and three, which it names. -/
def namedSum : Definition where
  name := "f"
  role := .function
  behavior :=
    ([.add (.const (Constant.ofInt 2 (.uint 8))), .add (.const (Constant.ofInt 3 (.uint 8))),
      .add (.builtInCall [⟨0⟩, ⟨1⟩] .add (.uint 8)), .add (.binding ⟨2⟩ "sum"),
      .add (.param "x" (.uint 8)), .add (.builtInCall [⟨3⟩, ⟨4⟩] .add (.uint 8)),
      .add (.ret ⟨5⟩)] : List Move).foldl (fun g move => move.after g) (empty "f")

/-- The sum is deleted, and the addition of the parameter still reads five. -/
theorem folding_keeps_values_namedSum :
    namedSum.behavior.Reachable ∧ namedSum.behavior.Acyclic ∧
    let o := ConstantFolding.pass.visitor.visitDefinition [] ⟨0, namedSum⟩
    let g' := o.state.definition.behavior
    o.result = .ok () ∧ g'.isActive ⟨2⟩ = false ∧
    ∀ leaves : Leaves, (g'.inputs ⟨5⟩).map (Option.map (leaves.eval g'))
      = [some (some (Constant.ofInt 5 (.uint 8))), some (some (leaves.param "x" (.uint 8)))] := by
  have hreachable : namedSum.behavior.Reachable := reachable_foldl "f" _
  have hacyclic : namedSum.behavior.Acyclic := acyclic_of_creation (by cbv)
  refine ⟨hreachable, hacyclic, by cbv, by cbv, fun leaves => ?_⟩
  obtain ⟨-, hreads⟩ := Reachable.folding_keeps_values hreachable hacyclic [] 0 leaves
  refine (hreads ⟨5⟩ (by cbv) (by cbv)).trans ?_
  cbv

end Graph

end BehaviorGraph
