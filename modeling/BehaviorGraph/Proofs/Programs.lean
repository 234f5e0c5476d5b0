/-
# Inlining in verified programs

The inliner visits callees before callers and looks at every call.  Nothing it does can fail where
reading and calling have no cycles (`Inlining.run_keeps`).

Whether it leaves consistent graphs is a question of widths: who read the call reads what the
callee returns from then on.  The verification compares arguments with parameters and returned
values with the declared result, but **that a call is as wide as what it calls is only remarked
upon**, and not even that where no result is declared.  If every call is, inlining leaves a
verified program consistent (`Context.inlining_leaves_consistent`).
-/
import BehaviorGraph.Proofs.Inlining
import BehaviorGraph.Proofs.Verified

namespace BehaviorGraph

/-! ## 1. Calls that fit -/

/-- Whatever the definition returns is this wide. -/
def Definition.Returning (d : Definition) (width : Nat) : Prop :=
  ∀ ret value, d.behavior.member? ret = some (.ret value) → d.behavior.widthOf value = some width

/-- References to parameters have the types that are declared. -/
def Definition.Typed (d : Definition) : Prop :=
  ∀ id name type, d.behavior.member? id = some (.param name type) →
    ∃ declared, d.param? name = some declared ∧ declared.type = type

/-- **The calls of a graph fit**: their arguments are as wide as the parameters, and they are as
wide as what is returned. -/
def Graph.CallsFit (g : Graph) (definitions : List Definition) : Prop :=
  ∀ id args func type, g.member? id = some (.funcCall args func type) →
    ∀ callee ∈ definitions, callee.name = func →
      g.Takes callee.params args ∧ callee.Returning type.width

namespace Payload

variable {payload : Payload} {f : NodeId → NodeId}

/-- Whose edges lead elsewhere is a call only if it was one. -/
theorem exists_of_mapEdges_eq_funcCall {args : List NodeId} {func : String} {type : ValueType}
    (h : payload.mapEdges f = .funcCall args func type) :
    ∃ args', payload = .funcCall args' func type ∧ args = args'.map f := by
  cases payload with
  | funcCall args' func' type' =>
    rw [mapEdges_funcCall] at h
    obtain ⟨rfl, rfl, rfl⟩ := funcCall.inj h
    exact ⟨args', rfl, rfl⟩
  | _ => exact Payload.noConfusion h

/-- The same of a return. -/
theorem exists_of_mapEdges_eq_ret {value : NodeId} (h : payload.mapEdges f = .ret value) :
    ∃ value', payload = .ret value' ∧ value = f value' := by
  cases payload with
  | ret value' => exact ⟨value', rfl, (ret.inj h).symm⟩
  | _ => exact Payload.noConfusion h

end Payload

/-- Arguments keep fitting as long as they keep their widths. -/
theorem Graph.Takes.map {g g' : Graph} {params : List Param} {args : List NodeId}
    {f : NodeId → NodeId}
    (h : g.Takes params args) (hwidth : ∀ arg ∈ args, g'.widthOf (f arg) = g.widthOf arg) :
    g'.Takes params (args.map f) := by
  intro place param arg hparam harg
  rw [List.getElem?_map] at harg
  obtain ⟨arg', harg', rfl⟩ := Option.map_eq_some_iff.mp harg
  rw [hwidth arg' (List.mem_of_getElem? harg')]
  exact h place param arg' hparam harg'

/-- The argument for a name stands where the parameter of the name is declared. -/
theorem Definition.exists_place {d : Definition} {args : List NodeId} {name : String} {arg : NodeId}
    {declared : Param} (hparam : d.param? name = some declared)
    (harg : Inlining.itemFor d.params args name = some arg) :
    ∃ place : Nat, d.params[place]? = some declared ∧ args[place]? = some arg := by
  obtain ⟨place, hplace, hget⟩ := Option.bind_eq_some_iff.mp harg
  rw [param?, List.find?_eq_bind_findIdx?_getElem?, hplace, Option.bind_some] at hparam
  exact ⟨place, hparam, hget⟩

/-! ## 2. One call -/

/-- **`d` came out of `d₀` with everything in order**, as far as callers and callees can tell. -/
structure Definition.Revised (definitions : List Definition) (d₀ d : Definition) : Prop where
  name : d.name = d₀.name
  kept : d.behavior.Kept
  ranked : ∃ rank, d.behavior.Ranked rank
  lawful : d.behavior.Lawful
  params : d.params = d₀.params
  typed : d.Typed
  fits : d.behavior.CallsFit definitions
  returning : ∀ width, d₀.Returning width → d.Returning width

/-- **A call in one definition of a program was inlined**, the callee being another one. -/
structure InlinedIn (definitions : List Definition) (d₀ d callee₀ callee : Definition)
    (table : Table NodeId NodeId) (args : List NodeId) (func : String) (type : ValueType)
    (value call new : NodeId) (between : Graph) (moved : NodeId → NodeId) (copied : NodeId → Prop)
    (rank : NodeId → Nat) (g' : Graph) : Prop where
  caller : Definition.Revised definitions d₀ d
  called : Definition.Revised definitions callee₀ callee
  listed : callee₀ ∈ definitions
  named : callee.name = func
  member : d.behavior.member? call = some (.funcCall args func type)
  returns : Inlining.Returns callee args value table
  inlined : callee.behavior.Inlined d.behavior table value call new between moved copied rank g'

namespace InlinedIn

variable {definitions : List Definition} {d₀ d callee₀ callee : Definition}
  {table : Table NodeId NodeId} {args : List NodeId} {func : String} {type : ValueType}
  {value call new id target : NodeId} {between g' : Graph} {moved : NodeId → NodeId}
  {copied : NodeId → Prop} {rank : NodeId → Nat} {payload : Payload}
  (h : InlinedIn definitions d₀ d callee₀ callee table args func type value call new between moved
    copied rank g')

include h

/-- **What stands for a node of the callee is as wide as the node.** -/
theorem widthOf_moved (hid : copied id) (hmember : callee.behavior.member? id = some payload) :
    g'.widthOf (moved id) = callee.behavior.widthOf id := by
  obtain ⟨rank, hranked⟩ := h.caller.ranked
  obtain ⟨sourceRank, hsourceRanked⟩ := h.called.ranked
  obtain ⟨htakes, -⟩ := h.caller.fits _ _ _ _ h.member callee₀ h.listed (h.called.name ▸ h.named)
  obtain ⟨⟨found, hfound, -⟩, hne, -⟩ := h.inlined.below hid
  rw [Graph.widthOf_eq_value h.inlined.exchanged.kept h.inlined.stillRanked
    (h.inlined.exchanged.member?_of_ne hne hfound),
    Graph.widthOf_eq_value h.called.kept hsourceRanked hmember]
  refine (h.inlined.value_moved h.caller.kept hranked h.called.kept hsourceRanked ⟨_, h.member, rfl⟩
    (fun harg => (h.returns.args_below h.caller.kept hranked h.member harg).1) (fun _ _ => rfl) ?_
    hmember hid).symm
  -- Parameters have the declared types, and arguments the widths of the parameters.
  intro param arg payload hentry hparam
  obtain ⟨name, type, hpayload, harg⟩ := h.returns.given hentry
  rw [Graph.payload?_of_member? hparam] at hpayload
  obtain rfl := Option.some.inj hpayload
  obtain ⟨declared, hdeclared, rfl⟩ := h.called.typed param name type hparam
  obtain ⟨place, hplace, hargPlace⟩ := Definition.exists_place hdeclared harg
  obtain ⟨⟨found, hfound, -⟩, -⟩ :=
    h.returns.args_below h.caller.kept hranked h.member ⟨param, hentry⟩
  rw [Interpretation.value_eq_step h.called.kept hsourceRanked hparam,
    ← Graph.widthOf_eq_value h.caller.kept hranked hfound,
    htakes place declared arg (h.called.params ▸ hplace) hargPlace]
  rfl

/-- **What stands for the call is as wide as the call.** -/
theorem standsFor : Graph.StandsFor Graph.measuring d.behavior call new g' := by
  intro _ payload hpayload _
  rw [h.member] at hpayload
  obtain rfl := Option.some.inj hpayload
  obtain ⟨rank, hranked⟩ := h.caller.ranked
  obtain ⟨-, hreturning⟩ :=
    h.caller.fits _ _ _ _ h.member callee₀ h.listed (h.called.name ▸ h.named)
  obtain ⟨ret, hret⟩ := h.returns.ret
  obtain ⟨found, hfound, -⟩ := h.returns.offers h.called.kept
  obtain ⟨⟨copy, hcopy, -⟩, hne, -⟩ := h.inlined.below h.inlined.root
  have hwidth := h.widthOf_moved h.inlined.root hfound
  rw [h.called.returning _ hreturning ret value hret,
    Graph.widthOf_eq_value h.inlined.exchanged.kept
    h.inlined.stillRanked (h.inlined.exchanged.member?_of_ne hne hcopy), h.inlined.stands] at hwidth
  rw [hwidth, Interpretation.value_eq_step h.caller.kept hranked h.member]
  rfl

/-- Who was there before reads the widths it read. -/
theorem widthOf_swap (hne : id ≠ call) (hmember : d.behavior.member? id = some payload)
    (htarget : target ∈ payload.inputEdges) :
    g'.widthOf (swap call new target) = d.behavior.widthOf target := by
  obtain ⟨rank, hranked⟩ := h.caller.ranked
  exact (h.inlined.rewritten ⟨_, h.member, rfl⟩).widthOf_read h.caller.kept hranked
    h.standsFor hne hmember htarget

/-- A copy obeys as the node does. -/
theorem lawful_inlined : g'.Lawful := by
  obtain ⟨rank, hranked⟩ := h.caller.ranked
  refine (h.inlined.rewritten ⟨_, h.member, rfl⟩).lawful h.caller.kept hranked h.caller.lawful
    h.standsFor ?_
  intro id payload hmember hnone
  rcases h.inlined.old_or_copy hmember with
    ⟨found, -, hfound, -⟩ | ⟨origin, found, -, -, hfound, hvalue, rfl, hreads⟩
  · rw [hnone] at hfound
    exact absurd hfound (by simp)
  · refine (h.called.lawful hfound).mapEdges (fun target htarget => ?_)
      fun target htarget kind hkind hcontrol => ?_
    · obtain ⟨read, hread⟩ := h.called.kept.member?_of_mem_inputEdges hfound htarget
      exact h.widthOf_moved (hreads target htarget) hread
    · -- A value reads values only.
      rw [Payload.edges_of_isValue hvalue] at htarget
      obtain ⟨read, hread, hreadValue⟩ :=
        h.called.kept.value_of_mem_inputEdges hfound hvalue htarget
      rw [Graph.kind?_of_member? hread] at hkind
      obtain rfl := Option.some.inj hkind
      rw [hcontrol] at hreadValue
      exact Bool.noConfusion hreadValue

/-- Calls fit, whether they were there before or are copies. -/
theorem callsFit_inlined : g'.CallsFit definitions := by
  intro id args' func' type' hmember other hother hotherName
  rcases h.inlined.old_or_copy hmember with
    ⟨found, hne, hfound, hcopy⟩ | ⟨origin, found, -, -, hfound, -, hcopy, hreads⟩
  · obtain ⟨before, rfl, rfl⟩ := Payload.exists_of_mapEdges_eq_funcCall hcopy.symm
    obtain ⟨htakes, hreturning⟩ := h.caller.fits _ _ _ _ hfound other hother hotherName
    refine ⟨htakes.map fun arg harg => ?_, hreturning⟩
    exact h.widthOf_swap hne hfound (Payload.mem_inputEdges_funcCall.mpr harg)
  · obtain ⟨before, rfl, rfl⟩ := Payload.exists_of_mapEdges_eq_funcCall hcopy.symm
    obtain ⟨htakes, hreturning⟩ := h.called.fits _ _ _ _ hfound other hother hotherName
    refine ⟨htakes.map fun arg harg => ?_, hreturning⟩
    have htarget : arg ∈ (Payload.funcCall before func' type').inputEdges :=
      Payload.mem_inputEdges_funcCall.mpr harg
    obtain ⟨read, hread⟩ := h.called.kept.member?_of_mem_inputEdges hfound htarget
    exact h.widthOf_moved (hreads arg htarget) hread

/-- What is returned is as wide as before. -/
theorem returning_inlined {width : Nat} (hwidth : d.Returning width) :
    { d with behavior := g' }.Returning width := by
  intro ret value' hret
  rcases h.inlined.old_or_copy hret with
    ⟨found, hne, hfound, hcopy⟩ | ⟨origin, found, -, -, hfound, hvalue, hcopy, -⟩
  · obtain ⟨before, rfl, rfl⟩ := Payload.exists_of_mapEdges_eq_ret hcopy.symm
    exact (h.widthOf_swap hne hfound (Payload.value_mem_inputEdges rfl)).trans
      (hwidth ret before hfound)
  · -- Only values are copied.
    obtain ⟨before, rfl, -⟩ := Payload.exists_of_mapEdges_eq_ret hcopy.symm
    exact Bool.noConfusion hvalue

/-- **Inlining a call leaves everything in order.** -/
theorem revised : Definition.Revised definitions d₀ { d with behavior := g' } where
  name := h.caller.name
  kept := h.inlined.exchanged.kept
  ranked := ⟨rank, h.inlined.stillRanked⟩
  lawful := h.lawful_inlined
  params := h.caller.params
  typed id name type hmember :=
    h.caller.typed id name type (h.inlined.param_old h.returns.ne_param hmember)
  fits := h.callsFit_inlined
  returning width hwidth := h.returning_inlined (h.caller.returning width hwidth)

end InlinedIn

/-! ## 3. The whole pass -/

namespace PassInfo

/-- What one text does to the values collected so far. -/
def collect (info : PassInfo) (values : Table String OptionValue) (text : String) :
    Table String OptionValue :=
  match info.readOption text with
  | .set name value => values.insert name value
  | _ => values

/-- Texts are collected one after the other; what is warned about changes nothing. -/
theorem collectOptions_folds {ε σ : Type} (info : PassInfo) (given : List String)
    (values : Table String OptionValue) (s : σ) :
    (info.collectOptions values given : Run ε σ _).Ends s fun r s' =>
      r = .ok (given.foldl info.collect values) ∧ s' = s := by
  induction given generalizing values with
  | nil => exact ⟨rfl, rfl⟩
  | cons text rest ih =>
    rw [PassInfo.collectOptions, List.foldl_cons, collect]
    cases info.readOption text <;> exact ih _

/-- The values the options of a pass come to. -/
def settled (info : PassInfo) (given : List String) : Table String OptionValue :=
  info.fillDefaults (given.foldl info.collect Table.empty)

/-- **Reading options changes nothing and does not fail**, and what comes of it has nothing to do
with the state. -/
theorem resolve_eq_settled {ε σ : Type} (info : PassInfo) (given : List String) (s : σ) :
    (info.resolve given : Run ε σ _).Ends s fun r s' => r = .ok (info.settled given) ∧ s' = s := by
  rw [PassInfo.resolve, Run.ends_bind]
  refine (info.collectOptions_folds given Table.empty s).imp fun r s' hend => ?_
  obtain ⟨rfl, rfl⟩ := hend
  exact ⟨rfl, rfl⟩

end PassInfo

namespace Inlining

variable {context : Context}

/-- What a value of the option starts the pass with. -/
def Memory.ofValue (value : OptionValue) : Except Abort Memory :=
  (value.toLimit.mapError Abort.error).map fun limit => ⟨limit, 0⟩

/-- **The pass starts with what its option comes to.** -/
theorem init_ends {values : Table String OptionValue}
    (h : (info.resolve context.options : Run Abort Context _).Ends context fun r context' =>
      r = .ok values ∧ context' = context) :
    init.Ends context fun r context' =>
      r = Memory.ofValue ((values.get? maxNodes.name).getD maxNodes.default) ∧
      context' = context := by
  rw [init, Run.ends_bind, Run.ends_state]
  simp only
  rw [Run.ends_bind]
  refine h.imp fun r context' hend => ?_
  obtain ⟨rfl, rfl⟩ := hend
  simp only
  rw [Run.ends_bind, Run.ends_ofExcept, Memory.ofValue]
  cases ((values.get? maxNodes.name).getD maxNodes.default).toLimit <;> exact ⟨rfl, rfl⟩

theorem init_keeps (context : Context) : init.Ends context fun _ context' => context' = context :=
  (init_ends (info.resolve_eq_settled context.options context)).imp fun _ _ hend => hend.2

/-- What inlining a call keeps, the visit of one definition keeps for all of them. -/
theorem updateAt_keeps {R : Nat → Definition → Prop} {p : PassState Memory}
    (hranked : ∀ {place d}, R place d → d.behavior.Kept ∧ ∃ rank, d.behavior.Ranked rank)
    (hstep : ∀ {place d d' others}, R place d → (∀ callee ∈ others, ∃ other, R other callee) →
      Visited others d d' → R place d') (place : Nat)
    (h : ∀ place d, p.context.definitions[place]? = some d → R place d) :
    (updateAt pass.visitor.visitDefinition place).Ends p fun r p' => r = .ok () ∧
      ∀ place d, p'.context.definitions[place]? = some d → R place d := by
  cases hd : p.context.definitions[place]? with
  | none =>
    rw [ends_updateAt_of_none hd]
    exact ⟨rfl, h⟩
  | some d =>
    have hothers : ∀ callee ∈ p.context.definitions.eraseIdx place, ∃ other, R other callee := by
      intro callee hcallee
      obtain ⟨other, hother⟩ := List.mem_iff_getElem?.mp (List.mem_of_mem_eraseIdx hcallee)
      exact ⟨other, h other callee hother⟩
    rw [ends_updateAt hd]
    refine (visitDefinition_keeps (P := R place) (fun callee hcallee => ?_) hranked
      (fun hbefore => hstep hbefore hothers) (h place d hd) p.memory).imp fun r v hend => ?_
    · obtain ⟨other, hother⟩ := hothers callee hcallee
      exact hranked hother
    · obtain ⟨rfl, hdone⟩ := hend
      refine ⟨rfl, fun other d' hd' => ?_⟩
      by_cases heq : place = other
      · subst heq
        rw [List.getElem?_set_self (List.getElem?_eq_some_iff.mp hd).1] at hd'
        exact Option.some.inj hd' ▸ hdone
      · rw [List.getElem?_set_ne heq] at hd'
        exact h other d' hd'

/-- **What inlining a call keeps for every definition, the pass keeps for all**, and it fails only
if its options cannot be read. -/
theorem run_keeps {R : Nat → Definition → Prop} (hcalls : context.NonRecursive)
    (hranked : ∀ {place d}, R place d → d.behavior.Kept ∧ ∃ rank, d.behavior.Ranked rank)
    (hstep : ∀ {place d d' others}, R place d → (∀ callee ∈ others, ∃ other, R other callee) →
      Visited others d d' → R place d')
    (h : ∀ place d, context.definitions[place]? = some d → R place d) :
    pass.run.Ends context fun r context' =>
      (∀ e, r = .error e → (init context).result = .error e) ∧
      ∀ place d, context'.definitions[place]? = some d → R place d := by
  have hkeeps := init_keeps context
  cases hinit : (init context).result with
  | error e =>
    have hfails : pass.init.Ends context fun r context' => r = .error e ∧ context' = context :=
      ⟨hinit, hkeeps⟩
    rw [Pass.ends_run_of_error hfails]
    exact ⟨fun _ he => he, h⟩
  | ok memory =>
    have hstarts : pass.init.Ends context fun r context' => r = .ok memory ∧ context' = context :=
      ⟨hinit, hkeeps⟩
    obtain ⟨places, hschedule, -⟩ := schedule_eq_ok hcalls .calleesFirst
    rw [Pass.ends_run hstarts rfl]
    refine (updateAll_ends
      (P := fun _ p => ∀ place d, p.context.definitions[place]? = some d → R place d)
      hschedule (fun place hp => ?_) h).imp fun r p hend => ?_
    · exact updateAt_keeps hranked hstep place hp
    · obtain ⟨rfl, hdone⟩ := hend
      exact ⟨fun e he => absurd he (by simp [Except.map]), hdone⟩

end Inlining

/-! ## 4. Verified programs -/

namespace Context

variable {context : Context}

/-- **Every call is as wide as what it calls returns.** -/
def ResultsFit (context : Context) : Prop :=
  ∀ d ∈ context.definitions, ∀ id args func type,
    d.behavior.member? id = some (.funcCall args func type) →
      ∀ callee ∈ context.definitions, callee.name = func → callee.Returning type.width

/-- In a verified context everything is in order to begin with. -/
theorem Verified.revised (h : context.Verified) (hfits : context.ResultsFit)
    (hnames : (context.definitions.map Definition.name).Nodup) {place : Nat} {d : Definition}
    (hd : context.definitions[place]? = some d) (hkept : d.behavior.Kept) {rank : NodeId → Nat}
    (hranked : d.behavior.Ranked rank) : Definition.Revised context.definitions d d where
  name := rfl
  kept := hkept
  ranked := ⟨rank, hranked⟩
  lawful := Definition.lawful_of_verify (h.definitions hd)
  params := rfl
  typed _ _ _ hmember := Definition.param?_of_verify (h.definitions hd) hmember
  fits id args func type hmember callee hcallee hname :=
    ⟨h.takes hnames hd hkept hranked hmember hcallee hname,
      hfits d (List.mem_of_getElem? hd) id args func type hmember callee hcallee hname⟩
  returning _ hwidth := hwidth

/-- **Inlining leaves every definition of a verified context in order**, if the calls fit. -/
theorem Verified.inlining_revises (h : context.Verified) (hfits : context.ResultsFit)
    (hnames : (context.definitions.map Definition.name).Nodup) (hcalls : context.NonRecursive)
    (hgraphs : ∀ (place : Nat) (d : Definition), context.definitions[place]? = some d →
      d.behavior.Kept ∧ ∃ rank, d.behavior.Ranked rank) :
    Inlining.pass.run.Ends context fun _ context' =>
      ∀ (place : Nat) (d : Definition), context'.definitions[place]? = some d →
        ∃ d₀ : Definition, context.definitions[place]? = some d₀ ∧
          Definition.Revised context.definitions d₀ d := by
  refine (Inlining.run_keeps (R := fun place d => ∃ d₀ : Definition,
    context.definitions[place]? = some d₀ ∧ Definition.Revised context.definitions d₀ d) hcalls
    (fun ⟨_, _, hd⟩ => ⟨hd.kept, hd.ranked⟩) ?_ ?_).imp fun _ _ hend => hend.2
  · rintro place d d' others ⟨d₀, hd₀, hd⟩ hothers hvisited
    refine ⟨d₀, hd₀, ?_⟩
    cases hvisited with
    | passed => exact hd
    | inlined hcallee hname hcall hreturns hinlined =>
      obtain ⟨other, callee₀, hcallee₀, hcalled⟩ := hothers _ hcallee
      exact InlinedIn.revised
        ⟨hd, hcalled, List.mem_of_getElem? hcallee₀, hname, hcall, hreturns, hinlined⟩
  · intro place d hd
    obtain ⟨hkept, rank, hranked⟩ := hgraphs place d hd
    exact ⟨d, hd, h.revised hfits hnames hd hkept hranked⟩

/-- **In a verified program without recursion inlining fails only if its options cannot be read**,
and if every call is as wide as what it calls returns, it leaves every graph consistent. -/
theorem inlining_leaves_consistent
    (hreachable : ∀ d ∈ context.definitions, d.behavior.Reachable)
    (hacyclic : ∀ d ∈ context.definitions, d.behavior.Acyclic)
    (hnames : (context.definitions.map Definition.name).Nodup) (hcalls : context.NonRecursive)
    (hverified : ∃ found, (Verification.pass.run context).result = .ok found ∧
      found.hasErrors = false) :
    let o := Inlining.pass.run context
    (∀ e, o.result = .error e → (Inlining.init context).result = .error e) ∧
    (context.ResultsFit →
      ∀ d ∈ o.state.definitions, d.behavior.checkConsistency.hasErrors = false) := by
  have hstart : ∀ (place : Nat) (d : Definition), context.definitions[place]? = some d →
      d.behavior.Kept ∧ ∃ rank, d.behavior.Ranked rank := by
    intro place d hd
    have hin := List.mem_of_getElem? hd
    exact ⟨(hreachable d hin).kept, (hacyclic d hin).exists_ranked (hreachable d hin).kept⟩
  refine ⟨?_, fun hfits d hd => ?_⟩
  · refine (Inlining.run_keeps (R := fun _ d => d.behavior.Kept ∧ ∃ rank, d.behavior.Ranked rank)
      hcalls (fun h => h) ?_ hstart).1
    intro _ d d' others hbefore _ hvisited
    cases hvisited with
    | passed => exact hbefore
    | inlined _ _ _ _ hinlined => exact ⟨hinlined.exchanged.kept, _, hinlined.stillRanked⟩
  · have hend := (verified_of_run hverified).inlining_revises hfits hnames hcalls hstart
    obtain ⟨place, hplace⟩ := List.mem_iff_getElem?.mp hd
    obtain ⟨d₀, -, hrevised⟩ := hend place d hplace
    exact (Graph.checkConsistency_iff hrevised.kept).mpr hrevised.lawful

/-- Whether the calls fit can be checked. -/
theorem resultsFit_of_all (h : (context.definitions.all fun d => d.behavior.members.all fun id =>
    match d.behavior.payload? id with
    | some (.funcCall _ func type) => context.definitions.all fun callee =>
      !decide (callee.name = func) || callee.behavior.members.all fun ret =>
        match callee.behavior.payload? ret with
        | some (.ret value) => decide (callee.behavior.widthOf value = some type.width)
        | _ => true
    | _ => true) = true) : context.ResultsFit := by
  intro d hd id args func type hmember callee hcallee hname ret value hret
  have hcall := List.all_eq_true.mp (List.all_eq_true.mp h d hd) id
    (Graph.mem_members_iff.mpr ⟨_, hmember⟩)
  simp only [Graph.payload?_of_member? hmember] at hcall
  have hreturns := List.all_eq_true.mp hcall callee hcallee
  rw [hname, decide_eq_true rfl, Bool.not_true, Bool.false_or] at hreturns
  have hwidth := List.all_eq_true.mp hreturns ret (Graph.mem_members_iff.mpr ⟨_, hret⟩)
  simpa only [Graph.payload?_of_member? hret, decide_eq_true_eq] using hwidth

/-- A function that returns its parameter of eight bits and declares no result. -/
def sameByte : Definition where
  name := "f"
  role := .function
  params := [⟨"x", .uint 8⟩]
  behavior :=
    ([.add (.param "x" (.uint 8)), .add (.ret ⟨0⟩), .add (.start (some ⟨1⟩)),
      .setOwner ⟨"f", .function, none⟩] : List Move).foldl (fun g move => move.after g) (.empty "f")

/-- An instruction that reads a call of it at some type, and writes the lower bits of that. -/
def lowerBits (type narrow : ValueType) : Definition where
  name := "i"
  role := .instruction
  behavior :=
    ([.add (.readReg "A" (.uint 8)), .add (.funcCall [⟨0⟩] "f" type), .add (.truncate ⟨1⟩ narrow),
      .add (.writeReg ⟨2⟩ none "B"), .add (.instrEnd [⟨3⟩]), .add (.start (some ⟨4⟩)),
      .setOwner ⟨"i", .instruction, none⟩] : List Move).foldl (fun g move => move.after g)
        (.empty "i")

/-- Four of the eight bits that are returned. -/
def lowerHalf : Context := { definitions := [sameByte, lowerBits (.uint 8) (.uint 4)] }

theorem forall_lowerHalf {P : Definition → Prop} (hcallee : P sameByte)
    (hcaller : P (lowerBits (.uint 8) (.uint 4))) : ∀ d ∈ lowerHalf.definitions, P d := by
  simp only [lowerHalf, List.forall_mem_cons]
  exact ⟨hcallee, hcaller, by simp⟩

/-- Twelve of sixteen, though only eight are returned. -/
def overread : Context := { definitions := [sameByte, lowerBits (.uint 16) (.uint 12)] }

/-- The first one is left consistent. -/
theorem inlining_leaves_consistent_lowerHalf :
    (∀ d ∈ lowerHalf.definitions, d.behavior.Reachable ∧ d.behavior.Acyclic) ∧
    (lowerHalf.definitions.map Definition.name).Nodup ∧ lowerHalf.NonRecursive ∧
    (Verification.pass.run lowerHalf).result = .ok .empty ∧ lowerHalf.ResultsFit ∧
    let o := Inlining.pass.run lowerHalf
    (∃ memory, o.result = .ok memory) ∧
    ∀ d ∈ o.state.definitions, d.behavior.checkConsistency.hasErrors = false := by
  have hreachable : ∀ d ∈ lowerHalf.definitions, d.behavior.Reachable :=
    forall_lowerHalf (Graph.reachable_foldl "f" _) (Graph.reachable_foldl "i" _)
  have hacyclic : ∀ d ∈ lowerHalf.definitions, d.behavior.Acyclic :=
    forall_lowerHalf (Graph.acyclic_of_creation (by cbv)) (Graph.acyclic_of_creation (by cbv))
  have hnames : (lowerHalf.definitions.map Definition.name).Nodup := by decide
  have hcalls : lowerHalf.NonRecursive := by
    have hnone : sameByte.calls = [] := by cbv
    have hone : (lowerBits (.uint 8) (.uint 4)).calls = ["f"] := by cbv
    refine nonRecursive_of_rank (fun name => if name = "f" then 0 else 1) (forall_lowerHalf ?_ ?_)
    · simp [hnone]
    · rw [hone]
      decide
  have hverified : (Verification.pass.run lowerHalf).result = .ok .empty := by cbv
  have hfits : lowerHalf.ResultsFit := resultsFit_of_all (by cbv)
  obtain ⟨hok, hconsistent⟩ := inlining_leaves_consistent hreachable hacyclic hnames hcalls
    ⟨_, hverified, rfl⟩
  refine ⟨fun d hd => ⟨hreachable d hd, hacyclic d hd⟩, hnames, hcalls, hverified, hfits, ?_,
    hconsistent hfits⟩
  have hinit : (Inlining.init lowerHalf).result = .ok ⟨some 256, 0⟩ := by cbv
  cases hresult : (Inlining.pass.run lowerHalf).result with
  | ok memory => exact ⟨memory, rfl⟩
  | error e => exact absurd (hinit.symm.trans (hok e hresult)) (by simp)

-- In the other one nothing wrong is found either, but it is not left consistent.
example : (Verification.pass.run overread).result = .ok .empty := by cbv

example : ((Inlining.pass.run overread).state.definitions.map fun d =>
    d.behavior.checkConsistency.hasErrors) = [false, true] := by cbv

end Context

end BehaviorGraph
