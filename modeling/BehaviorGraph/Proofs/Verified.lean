/-
# What verification without errors says

The verification visits every definition and collects what it finds; it changes nothing and never
fails.  If it finds no errors, nothing was found about any definition or any of its calls
(`Context.Verified`).

So every graph is lawful, every reference to a parameter has the declared type, and **every
argument is as wide as the parameter it is for** (`Verified.takes`).  Of the result of a call
nothing follows: that a call is read at another width than it has is only remarked upon.
-/
import BehaviorGraph.Pass.Verification
import BehaviorGraph.Proofs.Outline
import BehaviorGraph.Proofs.Rules
import BehaviorGraph.Proofs.Visiting

namespace BehaviorGraph

/-! ## 1. What is collected -/

theorem Diagnostics.errors_append (first second : Diagnostics) :
    (first ++ second).errors = first.errors ++ second.errors := rfl

/-- Errors are never taken back, so nothing was found on the way if nothing is left in the end. -/
theorem Diagnostics.errors_of_foldl {α : Type} {step : Diagnostics → α → Diagnostics} {P : α → Prop}
    (hstep : ∀ {found a}, (step found a).errors = [] → found.errors = [] ∧ P a) {items : List α}
    {start : Diagnostics} (h : (items.foldl step start).errors = []) :
    start.errors = [] ∧ ∀ a ∈ items, P a := by
  induction items generalizing start with
  | nil => exact ⟨h, by simp⟩
  | cons a rest ih =>
    obtain ⟨hfirst, hrest⟩ := ih h
    obtain ⟨hstart, ha⟩ := hstep hfirst
    exact ⟨hstart, List.forall_mem_cons.mpr ⟨ha, hrest⟩⟩

/-- **No errors were found in a context**, neither in a definition nor in its calls of others. -/
structure Context.Verified (context : Context) : Prop where
  definitions : ∀ {place : Nat} {d : Definition}, context.definitions[place]? = some d →
    d.verify.errors = []
  calls : ∀ {place : Nat} {d : Definition}, context.definitions[place]? = some d →
    (Verification.checkCalls d (context.definitions.eraseIdx place)).errors = []

namespace Verification

/-- A visit adds what is found to what was found before. -/
theorem ends_visitDefinition {others : List Definition} {found : Diagnostics} {d : Definition}
    (Q : Except Abort Unit → VisitState Diagnostics → Prop) :
    (pass.visitor.visitDefinition others).Ends ⟨found, d⟩ Q
      ↔ Q (.ok ()) ⟨found ++ d.verify ++ checkCalls d others, d⟩ := Iff.rfl

/-- **What is found has no errors only if the context is verified.** -/
theorem run_verifies (context : Context) : pass.run.Ends context fun r _ =>
    ∃ found, r = .ok found ∧ (found.errors = [] → context.Verified) := by
  have hinit : pass.init.Ends context fun r context' => r = .ok .empty ∧ context' = context :=
    ⟨rfl, rfl⟩
  have hschedule : schedule context.definitions .listed
      = .ok (List.range context.definitions.length) := rfl
  rw [Pass.ends_run hinit rfl]
  refine (updateAll_ends (P := fun done p => p.context = context ∧ (p.memory.errors = [] →
    ∀ place ∈ done, ∀ d, context.definitions[place]? = some d → d.verify.errors = [] ∧
      (checkCalls d (context.definitions.eraseIdx place)).errors = []))
    hschedule ?_ ⟨rfl, by simp⟩).imp fun r p hend => ?_
  · rintro done ⟨found, context'⟩ place ⟨rfl, hdone⟩
    cases hd : context'.definitions[place]? with
    | none =>
      rw [ends_updateAt_of_none hd]
      refine ⟨rfl, rfl, fun hnil other hother d hd' => ?_⟩
      rcases List.mem_cons.mp hother with rfl | hother
      · exact absurd (hd.symm.trans hd') (by simp)
      · exact hdone hnil other hother d hd'
    | some d =>
      obtain ⟨hlt, hget⟩ := List.getElem?_eq_some_iff.mp hd
      rw [ends_updateAt hd, ends_visitDefinition]
      refine ⟨rfl, ?_, fun hnil other hother d' hd' => ?_⟩
      · show { context' with definitions := context'.definitions.set place d } = context'
        rw [← hget, List.set_getElem_self]
      · simp only [Diagnostics.errors_append, List.append_eq_nil_iff] at hnil
        rcases List.mem_cons.mp hother with rfl | hother
        · obtain rfl := Option.some.inj (hd.symm.trans hd')
          exact ⟨hnil.1.2, hnil.2⟩
        · exact hdone hnil.1.1 other hother d' hd'
  · obtain ⟨rfl, -, hdone⟩ := hend
    have hall : ∀ {place d}, context.definitions[place]? = some d →
        place ∈ (List.range context.definitions.length).reverse := by
      intro place d hd
      simpa using (List.getElem?_eq_some_iff.mp hd).1
    exact ⟨p.memory, rfl, fun hnil =>
      ⟨fun hd => (hdone hnil _ (hall hd) _ hd).1, fun hd => (hdone hnil _ (hall hd) _ hd).2⟩⟩

end Verification

theorem Context.verified_of_run {context : Context}
    (h : ∃ found, (Verification.pass.run context).result = .ok found ∧ found.hasErrors = false) :
    context.Verified := by
  obtain ⟨found, hresult, hnone⟩ := h
  obtain ⟨found', hresult', hverifies⟩ := Verification.run_verifies context
  obtain rfl := Except.ok.inj (hresult'.symm.trans hresult)
  exact hverifies (by simpa [Diagnostics.hasErrors] using hnone)

/-! ## 2. Definitions -/

namespace Definition

variable {d : Definition} {id : NodeId} {name : String} {type : ValueType}

theorem lawful_of_verify (h : d.verify.errors = []) : d.behavior.Lawful := by
  rw [verify, Diagnostics.errors_append, Graph.verify] at h
  simp only [Diagnostics.errors_append, List.append_eq_nil_iff] at h
  exact Graph.checkKinds_errors_eq_nil_iff.mp h.1.2

/-- A reference to a parameter has the type that is declared. -/
theorem param?_of_verify (h : d.verify.errors = [])
    (hmember : d.behavior.member? id = some (.param name type)) :
    ∃ declared, d.param? name = some declared ∧ declared.type = type := by
  rw [verify, Diagnostics.errors_append, Diagnostics.ofErrors] at h
  simp only [List.append_eq_nil_iff] at h
  have hin : id ∈ d.behavior.membersOf (.exactly .param) :=
    Graph.mem_membersOf_iff.mpr ⟨_, hmember, rfl⟩
  have hnil := List.flatMap_eq_nil_iff.mp h.2.2 id hin
  simp only [Graph.payload?_of_member? hmember] at hnil
  cases hdeclared : d.param? name with
  | none => simp [hdeclared] at hnil
  | some declared =>
    by_cases htype : declared.type = type
    · exact ⟨declared, rfl, htype⟩
    · simp [hdeclared, htype] at hnil

end Definition

/-! ## 3. Calls -/

/-- The arguments are as wide as the parameters. -/
def Graph.Takes (g : Graph) (params : List Param) (args : List NodeId) : Prop :=
  ∀ (place : Nat) (param : Param) (arg : NodeId), params[place]? = some param →
    args[place]? = some arg →
    g.widthOf arg = some param.type.width

namespace Verification

variable {d callee : Definition} {others : List Definition} {id : NodeId} {args : List NodeId}
  {func : String} {type : ValueType}

/-- What is found about calls is what is found about each of them. -/
theorem errors_of_checkCalls (h : (checkCalls d others).errors = [])
    (hmember : d.behavior.member? id = some (.funcCall args func type)) :
    (checkCall d others id args func type).errors = [] := by
  refine (Diagnostics.errors_of_foldl (P := fun other => other = id →
    (checkCall d others id args func type).errors = []) ?_ h).2 id
      (Graph.mem_membersOf_iff.mpr ⟨_, hmember, rfl⟩) rfl
  intro found other hnil
  split at hnil
  · rename_i args' func' type' hpayload
    rw [Diagnostics.errors_append, List.append_eq_nil_iff] at hnil
    refine ⟨hnil.1, ?_⟩
    rintro rfl
    rw [Graph.payload?_of_member? hmember] at hpayload
    obtain ⟨rfl, rfl, rfl⟩ := Payload.funcCall.inj (Option.some.inj hpayload)
    exact hnil.2
  · rename_i hother
    refine ⟨hnil, ?_⟩
    rintro rfl
    exact absurd (Graph.payload?_of_member? hmember) (hother args func type)

/-- Nothing is wrong with a call only if there is a function it calls, and its arguments fit. -/
theorem of_checkCall (h : (checkCall d others id args func type).errors = []) :
    ∃ callee, (others.find? fun other => decide (other.name = func)) = some callee ∧
      callee.role = .function ∧ callee.params.length = args.length ∧
      argumentErrors d callee args = [] := by
  unfold checkCall at h
  split at h
  · split at h <;> exact absurd h (by simp [Diagnostics.ofErrors])
  · rename_i callee hcallee
    split at h
    · exact absurd h (by simp [Diagnostics.ofErrors])
    · rename_i hrole
      split at h
      · exact absurd h (by simp [Diagnostics.ofErrors])
      · rename_i hlength
        exact ⟨callee, hcallee, not_not.mp hrole, not_not.mp hlength, h⟩

/-- **Arguments that are not complained about are as wide as the parameters.** -/
theorem takes_of_argumentErrors {rank : NodeId → Nat} (h : argumentErrors d callee args = [])
    (hkept : d.behavior.Kept) (hranked : d.behavior.Ranked rank)
    (hvalues : ∀ arg ∈ args, d.behavior.Offers arg .value) :
    d.behavior.Takes callee.params args := by
  intro place param arg hparam harg
  obtain ⟨payload, hmember, hvalue⟩ := hvalues arg (List.mem_of_getElem? harg)
  obtain ⟨type, htype, -⟩ := Graph.exists_typeOf hkept hranked hmember hvalue
  have hpair : (param, arg) ∈ callee.params.zip args := by
    refine List.mem_of_getElem? (i := place) ?_
    rw [List.getElem?_zip_eq_some]
    exact ⟨hparam, harg⟩
  have hnone := List.filterMap_eq_nil_iff.mp h _ hpair
  rw [Graph.widthOf, htype, Option.map_some]
  by_cases hwidth : type.width = param.type.width
  · rw [hwidth]
  · simp [htype, ValueType.isTrivialCastTo, hwidth] at hnone

end Verification

namespace Context.Verified

variable {context : Context} {d callee : Definition} {place : Nat} {id : NodeId}
  {args : List NodeId} {func : String} {type : ValueType} {rank : NodeId → Nat}

/-- **A call in a verified context has arguments of the widths its callee asks for.** -/
theorem takes (h : context.Verified) (hnames : (context.definitions.map Definition.name).Nodup)
    (hd : context.definitions[place]? = some d) (hkept : d.behavior.Kept)
    (hranked : d.behavior.Ranked rank)
    (hmember : d.behavior.member? id = some (.funcCall args func type))
    (hcallee : callee ∈ context.definitions) (hname : callee.name = func) :
    d.behavior.Takes callee.params args := by
  obtain ⟨found, hfound, -, -, hargs⟩ := Verification.of_checkCall
    (Verification.errors_of_checkCalls (h.calls hd) hmember)
  have hfoundName : found.name = func := by simpa using List.find?_some hfound
  have hfoundIn : found ∈ context.definitions :=
    List.mem_of_mem_eraseIdx (List.mem_of_find?_eq_some hfound)
  obtain rfl := List.inj_on_of_nodup_map hnames hfoundIn hcallee (hfoundName.trans hname.symm)
  refine Verification.takes_of_argumentErrors hargs hkept hranked fun arg harg => ?_
  exact hkept.value_of_mem_inputEdges hmember rfl (Payload.mem_inputEdges_funcCall.mpr harg)

end Context.Verified

end BehaviorGraph
