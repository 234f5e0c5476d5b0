/-
# The usual passes leave nothing to do

The transformations are run one after the other: casts are eliminated, calls are inlined, constants
folded, equal nodes merged and dead values removed.  Each of them runs once, and **none brings back
what one before it did away with**. So what they leave has none of it (`Graph.NormalForm`), and
running them again changes nothing (`Context.preOpt_settles`).

For the calls to disappear every function has to know that it is one: the verification asks the
owner of a graph how the graph has to end, and not the definition it belongs to
(`preOpt_misowned`).

A pass is a step from contexts of one description to contexts of the next (`Run.Leads`), and the
descriptions accumulate: without casts, without calls as well, reduced as well, without equal
nodes, without dead values (`leads_casts` to `leads_dead`).  On contexts of the last description
every pass rests (`Run.Rests`).  That the graphs are consistent between the passes is not proved
here but checked by the pipeline, which would have ended the run.
-/
import BehaviorGraph.Pipeline.Plan
import BehaviorGraph.Pipeline.Standard
import BehaviorGraph.Proofs.Expanding
import BehaviorGraph.Proofs.Thinning

namespace BehaviorGraph

/-! ## 1. A pass and the check behind it -/

/-- A run that leads from states with `P` to states with `P'`, if it succeeds. -/
def Run.Leads {ε σ : Type} (m : Run ε σ Unit) (P P' : σ → Prop) : Prop :=
  ∀ s, P s → m.Ends s fun r s' => r = .ok () → P' s'

/-- A run that succeeds and leaves states with `P` as they are. -/
def Run.Rests {ε σ : Type} (m : Run ε σ Unit) (P : σ → Prop) : Prop :=
  ∀ s, P s → m.Ends s fun r s' => r = .ok () ∧ s' = s

namespace Run

variable {ε σ α : Type} {m : α → Run ε σ Unit} {a : α} {rest items : List α} {P P' P'' : σ → Prop}

/-- Running nothing leads nowhere. -/
theorem leads_nil : (each m []).Leads P P := fun _ h _ => h

/-- One after the other: what the first leaves is what the others start from. -/
theorem Leads.cons (h : (m a).Leads P P') (hrest : (each m rest).Leads P' P'') :
    (each m (a :: rest)).Leads P P'' := by
  intro s hs
  show (m a >>= fun _ => each m rest).Ends s _
  rw [ends_bind]
  refine (h s hs).imp fun r s' hend => ?_
  cases r with
  | ok value => exact hrest s' (hend rfl)
  | error e => exact fun herror => absurd herror (by simp)

/-- What is reached may be weakened. -/
theorem Leads.imp {m : Run ε σ Unit} (h : m.Leads P P') (himp : ∀ s, P' s → P'' s) :
    m.Leads P P'' :=
  fun s hs => (h s hs).imp fun _ s' hend hok => himp s' (hend hok)

/-- If every run of a list rests, all of them together do. -/
theorem rests_each (h : ∀ a ∈ items, (m a).Rests P) : (each m items).Rests P := by
  intro s hs
  induction items with
  | nil => exact ⟨rfl, rfl⟩
  | cons a rest ih =>
    show (m a >>= fun _ => each m rest).Ends s _
    rw [ends_bind]
    refine (h a (by simp) s hs).imp fun r s' hend => ?_
    obtain ⟨rfl, rfl⟩ := hend
    exact ih fun a ha => h a (List.mem_cons_of_mem _ ha)

end Run

/-- **No graph is inconsistent.** -/
def Context.Consistent (context : Context) : Prop :=
  ∀ d ∈ context.definitions, d.behavior.checkConsistency.errors = []

/-- A consistent graph is lawful, which is what the proofs about passes ask for. -/
theorem Context.Consistent.lawful {context : Context} (h : context.Consistent) {d : Definition}
    (hd : d ∈ context.definitions) (hkept : d.behavior.Kept) : d.behavior.Lawful :=
  (Graph.checkConsistency_iff hkept).mp (by simp [Diagnostics.hasErrors, h d hd])

/-- The check passes exactly if everything is consistent. -/
theorem requireConsistent_ends (name : String) (context : Context) :
    (requireConsistent id name).Ends context fun r context' =>
      context' = context ∧ (r = .ok () ↔ context.Consistent) := by
  have hiff : (inconsistencies name context).isEmpty = true ↔ context.Consistent := by
    simp [inconsistencies, Context.Consistent, List.isEmpty_iff]
  rw [requireConsistent, Run.ends_bind, Run.ends_state]
  simp only [id_eq]
  cases hempty : (inconsistencies name context).isEmpty with
  | true => exact ⟨rfl, fun _ => hiff.mp hempty, fun _ => rfl⟩
  | false =>
    refine ⟨rfl, fun herror => ?_, fun hconsistent => ?_⟩
    · exact absurd (show Except.error _ = Except.ok () from herror) (by simp)
    · rw [hiff.mpr hconsistent] at hempty
      exact Bool.noConfusion hempty

namespace Registered

variable {σ : Type} {pass : Pass σ} {P : Context → Prop}

/-- Run a pass and check what it leaves. -/
def checked (pass : Registered Context) : Run Failure Context Unit := do
  pass.run
  requireConsistent id pass.info.name

/-- A registered pass forgets what the pass found out, and wraps its failures. -/
theorem ends_run_ofPass (Q : Except Failure Unit → Context → Prop) {context : Context} :
    (ofPass pass).run.Ends context Q ↔ pass.run.Ends context fun r context' =>
      Q ((r.mapError Failure.ofAbort).map fun _ => ()) context' := by
  show (Run.mapFailure Failure.ofAbort pass.run >>= fun _ => pure ()).Ends context Q ↔ _
  rw [Run.ends_bind, Run.mapFailure, Run.ends_within]
  refine Run.ends_congr fun r context' => ?_
  cases r <;> exact Iff.rfl

/-- What a pass is known to lead to, and on top of that consistency, since it was checked. -/
theorem leads_checked (P' : Context → Prop) (h : ∀ {context}, P context →
    pass.run.Ends context fun r context' => ∀ memory, r = .ok memory → P' context') :
    (ofPass pass).checked.Leads P fun context => P' context ∧ context.Consistent := by
  intro context hbefore
  rw [checked, Run.ends_bind, ends_run_ofPass]
  refine (h hbefore).imp fun r context' hend => ?_
  cases r with
  | error e => exact fun herror => absurd herror (by simp)
  | ok memory =>
    refine (requireConsistent_ends _ context').imp fun r context'' hchecked hok => ?_
    obtain ⟨rfl, hconsistent⟩ := hchecked
    exact ⟨hend memory rfl, hconsistent.mp hok⟩

/-- A pass that rests on consistent contexts passes the check. -/
theorem rests_checked (hconsistent : ∀ {context}, P context → context.Consistent)
    (h : ∀ {context}, P context → pass.run.Ends context fun r context' =>
      (∃ memory, r = .ok memory) ∧ context' = context) : (ofPass pass).checked.Rests P := by
  intro context hbefore
  rw [checked, Run.ends_bind, ends_run_ofPass]
  refine (h hbefore).imp fun r context' hend => ?_
  obtain ⟨⟨memory, rfl⟩, rfl⟩ := hend
  refine (requireConsistent_ends _ context').imp fun r context'' hchecked => ?_
  exact ⟨hchecked.2.mpr (hconsistent hbefore), hchecked.1⟩

end Registered

/-! ## 2. The plan -/

/-- A pass of a plan does what the pass and its check do; the rest is for the log. -/
theorem Registry.ends_runPass {registry : Registry Context} {plan : Plan}
    {pass : Registered Context}
    (hfound : registry.pass? pass.info.name = some pass) (hchecked : pass.diagnostic = false)
    (hplan : plan.excluded = []) (dump : Bool) {context : Context}
    (Q : Except Failure Unit → Context → Prop) :
    (registry.runPass id plan dump pass.info.name).Ends context Q ↔
      pass.checked.Ends context Q := by
  simp only [runPass, hplan, List.contains_nil, Bool.false_eq_true, if_false, hfound, hchecked,
    Bool.not_false, if_true]
  rw [Registered.checked, Run.ends_bind, Run.ends_bind]
  refine Run.ends_congr fun r context' => ?_
  cases r with
  | error e => exact Iff.rfl
  | ok value =>
    simp only
    rw [Run.ends_bind]
    refine Run.ends_congr fun r context'' => ?_
    cases r with
    | error e => exact Iff.rfl
    | ok value => cases dump <;> exact Iff.rfl

/-- The passes of a plan are the passes with their checks, one after the other, if the names of the
plan are found. -/
theorem Registry.ends_each_runPass {registry : Registry Context} {plan : Plan}
    {passes : List (Registered Context)}
    (hfound : ∀ pass ∈ passes, registry.pass? pass.info.name = some pass ∧ pass.diagnostic = false)
    (hplan : plan.excluded = []) (dump : Bool) {context : Context}
    (Q : Except Failure Unit → Context → Prop) :
    (Run.each (registry.runPass id plan dump) (passes.map fun pass => pass.info.name)).Ends
      context Q
      ↔ (Run.each Registered.checked passes).Ends context Q := by
  induction passes generalizing context with
  | nil => exact Iff.rfl
  | cons pass passes ih =>
    obtain ⟨hpass, hchecked⟩ := hfound pass (by simp)
    show (registry.runPass id plan dump pass.info.name >>= fun _ => Run.each _ _).Ends context Q
      ↔ (pass.checked >>= fun _ => Run.each _ _).Ends context Q
    rw [Run.ends_bind, Run.ends_bind, ends_runPass hpass hchecked hplan dump]
    refine Run.ends_congr fun r context' => ?_
    cases r with
    | error e => exact Iff.rfl
    | ok value => exact ih fun pass hin => hfound pass (List.mem_cons_of_mem _ hin)

/-- The registry everyone starts from, written out. -/
def usualRegistry : Registry Context where
  passes := verification :: transformations
  aliases := ⟨[("validate", [verification.info.name]), ("pre-opt", transformationNames),
    ("all", verification.info.name :: transformationNames ++ [verification.info.name])]⟩

/-- Registering everything succeeds and gives this registry. -/
theorem standardRegistry_eq : standardRegistry = .ok usualRegistry := rfl

/-- The alias for the usual passes is expanded to their names. -/
theorem ends_plan_preOpt {context : Context} (Q : Except Failure Plan → Context → Prop) :
    (usualRegistry.plan ["pre-opt"] [] []).Ends context Q
      ↔ Q (.ok ⟨transformationNames, []⟩) context := Iff.rfl

/-- **The usual passes are run one after the other, each of them once.** -/
theorem ends_preOpt (dump : Bool) {context : Context} (Q : Except Failure Unit → Context → Prop) :
    (usualRegistry.execute id ["pre-opt"] [] [] dump).Ends context Q
      ↔ (Run.each Registered.checked transformations).Ends context Q := by
  have hfound : ∀ pass ∈ transformations,
      usualRegistry.pass? pass.info.name = some pass ∧ pass.diagnostic = false := by
    simp only [transformations, List.forall_mem_cons]
    exact ⟨⟨rfl, rfl⟩, ⟨rfl, rfl⟩, ⟨rfl, rfl⟩, ⟨rfl, rfl⟩, ⟨rfl, rfl⟩, by simp⟩
  rw [Registry.execute, Run.ends_bind, ends_plan_preOpt]
  exact Registry.ends_each_runPass hfound rfl dump Q

/-! ## 3. The first run -/

namespace Context

variable {context context' : Context}

/-- **The inliner has no limit**: its option comes to a negative number. -/
def Unlimited (context : Context) : Prop :=
  ∃ values n, ((Inlining.info.resolve context.options : Run Abort Context _) context).result
    = .ok values ∧
    values.get? Inlining.maxNodes.name = some (.num n) ∧ n < 0

/-- Whether there is a limit is a matter of the options. -/
theorem Unlimited.congr (h : context.Unlimited) (hoptions : context'.options = context.options) :
    context'.Unlimited := by
  obtain ⟨values, n, hvalues, hlimit⟩ := h
  obtain rfl :=
    Except.ok.inj ((Inlining.info.resolve_eq_settled context.options context).1.symm.trans hvalues)
  refine ⟨_, n, ?_, hlimit⟩
  rw [hoptions]
  exact (Inlining.info.resolve_eq_settled context.options context').1

/-- Without a limit the inliner starts with none, and leaves the context as it is. -/
theorem Unlimited.init (h : context.Unlimited) : Inlining.init.Ends context fun r context' =>
    r = .ok ⟨none, 0⟩ ∧ context' = context := by
  obtain ⟨values, n, hvalues, hlimit, hnegative⟩ := h
  have hresolve := Inlining.info.resolve_eq_settled (ε := Abort) context.options context
  obtain rfl := Except.ok.inj (hresolve.1.symm.trans hvalues)
  have hnone : Inlining.Memory.ofValue (.num n) = .ok ⟨none, 0⟩ := by
    cases n with
    | ofNat n => exact absurd hnegative (by simp)
    | negSucc n => rfl
  refine (Inlining.init_ends hresolve).imp fun r context' hend => ?_
  rwa [hlimit, Option.getD_some, hnone] at hend

/-- What is known of every definition after a pass was checked. -/
structure Reaches (P : Definition → Prop) (context : Context) : Prop where
  unlimited : context.Unlimited
  definitions : ∀ d ∈ context.definitions, P d
  consistent : context.Consistent

/-- **Where the passes start**: the records are in order, and every call can be inlined. -/
structure Prepared (context : Context) : Prop where
  names : (context.definitions.map Definition.name).Nodup
  linked : Linked context.definitions
  unlimited : context.Unlimited
  graphs : ∀ d ∈ context.definitions, d.behavior.Kept ∧ ∃ rank, d.behavior.Ranked rank

end Context

open Registered

variable {d d' : Definition}

/-- The first pass finds the program as it is prepared, and the calls stay linked. -/
theorem leads_casts : (ofPass CastElimination.pass).checked.Leads Context.Prepared fun context =>
    (context.Prepared ∧ ∀ d ∈ context.definitions, d.Castless) ∧ context.Consistent := by
  refine leads_checked _ fun {context} h => ?_
  refine (CastElimination.run_castless h.graphs).imp fun r context' hend memory hok => ?_
  obtain ⟨hall, hoptions⟩ := hend memory hok
  have hinherits : List.Forall₂ Definition.Inherits context.definitions context'.definitions :=
    hall.imp fun _ _ h => h.1
  have hcastless : ∀ d ∈ context'.definitions, d.Castless :=
    forall_mem_right (hall.imp fun _ _ h => h.2)
  refine ⟨⟨?_, h.linked.inherit hinherits, h.unlimited.congr hoptions, fun d hd => ?_⟩, hcastless⟩
  · rw [map_name_of_inherits hinherits]
    exact h.names
  · exact ⟨(hcastless d hd).kept, (hcastless d hd).ranked⟩

/-- The second needs the program linked and without recursion; it leaves no calls, and no casts
come back with what is copied in. -/
theorem leads_calls : (ofPass Inlining.pass).checked.Leads
    (fun context => (context.Prepared ∧ ∀ d ∈ context.definitions, d.Castless) ∧ context.Consistent)
    (Context.Reaches Definition.Expanded) := by
  refine (leads_checked (fun context => context.Unlimited ∧
    ∀ d ∈ context.definitions, d.Expanded) ?_).imp fun _ h => ⟨h.1.1, h.1.2, h.2⟩
  rintro context ⟨⟨hprepared, hcastless⟩, -⟩
  have hinit : Inlining.init.Ends context fun r context' =>
      context' = context ∧ ∀ memory, r = .ok memory → memory.limit = none := by
    refine hprepared.unlimited.init.imp fun r context' hend => ⟨hend.2, fun memory hok => ?_⟩
    rw [← Except.ok.inj (hend.1.symm.trans hok)]
  refine (Inlining.run_expanded hprepared.names hprepared.linked hcastless hinit).imp
    fun r context' hend memory hok => ?_
  obtain ⟨hall, hoptions⟩ := hend memory hok
  exact ⟨hprepared.unlimited.congr hoptions, forall_mem_right (hall.imp fun _ _ h => h.2)⟩

/-- A pass that looks at one definition at a time.  The others are not asked about, so it is enough
to follow the visit of one definition. -/
theorem leads_each {σ : Type} {pass : Pass σ} {P P' : Definition → Prop}
    (hinit : ∀ context, pass.init.Ends context fun _ context' => context' = context)
    (hvisits : ∀ memory context, pass.visitor.precondition memory context = none)
    (hkept : ∀ {d}, P d → d.behavior.Kept)
    (hvisit : ∀ {d}, P d → d.behavior.Lawful → ∀ others memory,
      (pass.visitor.visitDefinition others).Ends ⟨memory, d⟩ fun r v => r = .ok () →
        P' v.definition) :
    (ofPass pass).checked.Leads (Context.Reaches P) (Context.Reaches P') := by
  refine (leads_checked (fun context => context.Unlimited ∧
    ∀ d ∈ context.definitions, P' d) ?_).imp fun _ h => ⟨h.1.1, h.1.2, h.2⟩
  intro context h
  refine (Pass.run_changes_each (R := fun _ => P') (hinit context) (hvisits · context)
    fun d hd others memory => ?_).imp fun r context' hend memory hok => ?_
  · have hd' := h.definitions d hd
    exact hvisit hd' (h.consistent.lawful hd (hkept hd')) others memory
  · obtain ⟨hall, hoptions⟩ := hend memory hok
    exact ⟨h.unlimited.congr hoptions, forall_mem_right hall⟩

/-- Folding constants brings in no cast and no call. -/
theorem Graph.Folding.expanded (h : d.behavior.Folding d'.behavior) (hd : d.Expanded) :
    d'.Expanded :=
  ⟨⟨h.conserved.carried.kept, h.conserved.carried.ranked, h.kinds (by simp) hd.casts⟩,
    h.kinds (by simp) hd.calls⟩

/-- Neither do merging and removing. -/
theorem Graph.Thinned.expanded (h : d.behavior.Thinned d'.behavior) (hd : d.Expanded) :
    d'.Expanded :=
  ⟨⟨h.conserved.carried.kept, h.conserved.carried.ranked, h.kinds hd.casts⟩, h.kinds hd.calls⟩

/-- The third leaves no operation to be computed. -/
theorem leads_constants :
    (ofPass ConstantFolding.pass).checked.Leads (Context.Reaches Definition.Expanded)
    (Context.Reaches fun d => d.Expanded ∧ d.behavior.Reduced) := by
  refine leads_each (fun _ => rfl) (fun _ _ => rfl) (fun hd => hd.kept) ?_
  intro d hd hlawful others memory
  obtain ⟨rank, hranked⟩ := hd.ranked
  refine (ConstantFolding.visitDefinition_folding hd.kept hranked hlawful others memory).imp
    fun r v hend hok => ?_
  exact ⟨(hend hok).expanded hd, (hend hok).irreducible⟩

/-- Merging moves edges between equal nodes, so what could not be folded still cannot. -/
theorem leads_twins : (ofPass Merging.pass).checked.Leads
    (Context.Reaches fun d => d.Expanded ∧ d.behavior.Reduced)
    (Context.Reaches fun d => d.Expanded ∧ d.behavior.Reduced ∧ d.behavior.Distinct) := by
  refine leads_each (fun _ => rfl) (fun _ _ => rfl) (fun hd => hd.1.kept) ?_
  rintro d ⟨hd, hreduced⟩ hlawful others memory
  obtain ⟨rank, hranked⟩ := hd.ranked
  refine (Merging.visitDefinition_distinct hd.kept hranked hlawful others memory).imp
    fun r v hend _ => ?_
  obtain ⟨-, hthinned, hdistinct⟩ := hend
  exact ⟨hthinned.expanded hd, hthinned.reduced hreduced, hdistinct⟩

/-- Removing what nobody uses takes nodes away and changes none of those that stay. -/
theorem leads_dead : (ofPass DeadValues.pass).checked.Leads
    (Context.Reaches fun d => d.Expanded ∧ d.behavior.Reduced ∧ d.behavior.Distinct)
    (Context.Reaches fun d => d.Expanded ∧ d.behavior.NormalForm) := by
  refine leads_each (fun _ => rfl) (fun _ _ => rfl) (fun hd => hd.1.kept) ?_
  rintro d ⟨hd, hreduced, hdistinct⟩ hlawful others memory
  obtain ⟨rank, hranked⟩ := hd.ranked
  refine (DeadValues.visitDefinition_used hd.kept hranked hlawful others memory).imp
    fun r v hend _ => ?_
  obtain ⟨-, hthinned, hstill, hused⟩ := hend
  have hexpanded := hthinned.expanded hd
  exact ⟨hexpanded, hexpanded.casts, hexpanded.calls, hthinned.reduced hreduced,
    hstill hdistinct, hused⟩

/-- **All of them together leave nothing to do.** -/
theorem leads_transformations : (Run.each checked transformations).Leads Context.Prepared
    (Context.Reaches fun d => d.Expanded ∧ d.behavior.NormalForm) :=
  leads_casts.cons (leads_calls.cons (leads_constants.cons (leads_twins.cons
    (leads_dead.cons Run.leads_nil))))

/-! ## 4. The second run -/

/-- **There is nothing left to do in a context.** -/
abbrev Context.Settled : Context → Prop :=
  Context.Reaches fun d => d.Expanded ∧ d.behavior.NormalForm

/-- A pass that leaves settled definitions as they are leaves settled contexts as they are. -/
theorem rests_of_visits {σ : Type} {pass : Pass σ} {memory : σ}
    (hinit : ∀ {context}, context.Settled → pass.init.Ends context fun r context' =>
      r = .ok memory ∧ context' = context)
    (hvisits : ∀ context, pass.visitor.precondition memory context = none)
    (hvisit : ∀ {d : Definition}, d.Expanded → d.behavior.NormalForm → d.behavior.Lawful →
      ∀ others memory, (pass.visitor.visitDefinition others).Ends ⟨memory, d⟩ fun r v =>
        r = .ok () ∧ v.definition = d) : (ofPass pass).checked.Rests Context.Settled := by
  refine rests_checked (fun h => h.consistent) fun {context} h => ?_
  -- Without calls no function calls itself, so there is an order to visit the definitions in.
  have hcalls : context.NonRecursive := by
    intro name hcycle
    obtain ⟨callee, ⟨d, hd, -, hcallee⟩, -⟩ := Relation.TransGen.head'_iff.mp hcycle
    obtain ⟨id, args, type, hmember⟩ := Definition.mem_calls_iff.mp hcallee
    exact (h.definitions d hd).1.calls hmember rfl
  obtain ⟨places, hplaces, -⟩ := schedule_eq_ok hcalls pass.visitor.callOrder
  refine Pass.run_rests (hinit h) (hvisits context) hplaces fun d hd others memory => ?_
  obtain ⟨hexpanded, hnormal⟩ := h.definitions d hd
  exact hvisit hexpanded hnormal (h.consistent.lawful hd hexpanded.kept) others memory

/-- There is no cast to visit. -/
theorem rests_casts : (ofPass CastElimination.pass).checked.Rests Context.Settled := by
  refine rests_of_visits (fun _ => ⟨rfl, rfl⟩) (fun _ => rfl) fun {d} hd _ _ others memory => ?_
  refine visitDefinition_of_nodes (Q := fun r d' => r = .ok () ∧ d' = d) rfl rfl
    (fun v => ⟨⟨_, rfl⟩, rfl⟩) ((visitNodes_rests ?_ _).imp fun r v hend =>
      ⟨hend.1, by rw [hend.2]⟩)
  intro id payload hmember
  refine visitStep_of_none hmember ?_ ⟨rfl, rfl⟩
  have hkind := hd.casts hmember
  cases payload <;> first | rfl | exact absurd rfl hkind

/-- There is no call to visit. -/
theorem rests_calls : (ofPass Inlining.pass).checked.Rests Context.Settled := by
  refine rests_of_visits (fun h => h.unlimited.init) (fun _ => rfl)
    fun {d} hd _ _ others memory => ?_
  refine visitDefinition_of_nodes (Q := fun r d' => r = .ok () ∧ d' = d) rfl rfl
    (fun v => (Run.ends_count (fun v : VisitState Inlining.Memory => v.memory.inlined) _ _ _ _).mpr
      ⟨⟨_, rfl⟩, rfl⟩) ((visitNodes_rests ?_ _).imp fun r v hend => ⟨hend.1, by rw [hend.2]⟩)
  intro id payload hmember
  refine visitStep_of_none hmember ?_ ⟨rfl, rfl⟩
  have hkind := hd.calls hmember
  cases payload <;> first | rfl | exact absurd rfl hkind

/-- All members are visited, but none can be folded. -/
theorem rests_constants : (ofPass ConstantFolding.pass).checked.Rests Context.Settled := by
  refine rests_of_visits (fun _ => ⟨rfl, rfl⟩) (fun _ => rfl)
    fun {d} hd hnormal hlawful others memory => ?_
  obtain ⟨rank, hranked⟩ := hd.ranked
  exact ConstantFolding.visitDefinition_rests hd.kept hranked
    (fun hmember => (Graph.Lawful.irreducible_iff hlawful hmember).mp (hnormal.reduced hmember))
      others memory

/-- No two nodes are equal, so none is merged. -/
theorem rests_twins : (ofPass Merging.pass).checked.Rests Context.Settled := by
  refine rests_of_visits (fun _ => ⟨rfl, rfl⟩) (fun _ => rfl)
    fun {d} hd hnormal _ others memory => ?_
  refine visitDefinition_of_edit (Q := fun r d' => r = .ok () ∧ d' = d) rfl ?_
    ((Merging.run_rests hd.kept hnormal.distinct).imp fun r g hend => ?_)
  · intro merged v
    exact (Run.ends_count (fun _ => merged) _ _ _ _).mpr ⟨rfl, rfl⟩
  · obtain ⟨rfl, rfl⟩ := hend
    exact ⟨0, rfl, rfl, rfl⟩

/-- Every value is used, so none is removed. -/
theorem rests_dead : (ofPass DeadValues.pass).checked.Rests Context.Settled := by
  refine rests_of_visits (fun _ => ⟨rfl, rfl⟩) (fun _ => rfl)
    fun {d} _ hnormal _ others memory => ?_
  refine visitDefinition_of_edit (Q := fun r d' => r = .ok () ∧ d' = d) rfl ?_
    ((DeadValues.run_rests hnormal.used).imp fun r g hend => ?_)
  · intro removed v
    exact (Run.ends_count (fun _ => removed) _ _ _ _).mpr ⟨rfl, rfl⟩
  · obtain ⟨rfl, rfl⟩ := hend
    exact ⟨0, rfl, rfl, rfl⟩

/-- **Where there is nothing left to do the passes do nothing.** -/
theorem rests_transformations : (Run.each checked transformations).Rests Context.Settled := by
  refine Run.rests_each ?_
  simp only [transformations, List.forall_mem_cons]
  exact ⟨rests_casts, rests_calls, rests_constants, rests_twins, rests_dead, by simp⟩

/-! ## 5. Once and for all -/

namespace Context

variable {context : Context} {registry : Registry Context}

/-- **Run once, the usual passes leave nothing to do, and run again they do nothing.**  Of a
verified program in which every function knows that it is one, and without a limit on inlining,
they leave no casts and no calls, no operation on constants, no two equal nodes and no unused
value; nothing else can come of them if they are run once more. -/
theorem preOpt_settles (hregistry : standardRegistry = .ok registry)
    (hreachable : ∀ d ∈ context.definitions, d.behavior.Reachable)
    (hacyclic : ∀ d ∈ context.definitions, d.behavior.Acyclic)
    (hnames : (context.definitions.map Definition.name).Nodup)
    (howners : ∀ d ∈ context.definitions, d.role = .function →
      d.behavior.owner.map Owner.role = some .function)
    (hverified : ∃ found, (Verification.pass.run context).result = .ok found ∧
      found.hasErrors = false)
    (hunlimited : context.Unlimited) (dump again : Bool)
    (hok : (registry.execute id ["pre-opt"] [] [] dump context).result = .ok ()) :
    let settled := (registry.execute id ["pre-opt"] [] [] dump context).state
    (∀ d ∈ settled.definitions, d.behavior.NormalForm) ∧
    (registry.execute id ["pre-opt"] [] [] again settled).result = .ok () ∧
    (registry.execute id ["pre-opt"] [] [] again settled).state = settled := by
  obtain rfl := Except.ok.inj (standardRegistry_eq.symm.trans hregistry)
  have hprepared : context.Prepared := by
    refine ⟨hnames, (verified_of_run hverified).linked howners, hunlimited, fun d hd => ?_⟩
    have hkept := (hreachable d hd).kept
    exact ⟨hkept, (hacyclic d hd).exists_ranked hkept⟩
  have hfirst : (usualRegistry.execute id ["pre-opt"] [] [] dump).Ends context fun r settled =>
      r = .ok () → settled.Settled :=
    (ends_preOpt dump _).mpr (leads_transformations context hprepared)
  have hsettled := hfirst hok
  have hsecond : (usualRegistry.execute id ["pre-opt"] [] [] again).Ends _ fun r later =>
      r = .ok () ∧ later = _ := (ends_preOpt again _).mpr (rests_transformations _ hsettled)
  exact ⟨fun d hd => (hsettled.definitions d hd).2, hsecond⟩

/-- A function that returns its parameter, cast to the type it has already. -/
def castByte : Definition where
  name := "f"
  role := .function
  params := [⟨"x", .uint 8⟩]
  behavior :=
    ([.add (.param "x" (.uint 8)), .add (.typeCast ⟨0⟩ (.uint 8)), .add (.ret ⟨1⟩),
      .add (.start (some ⟨2⟩)), .setOwner ⟨"f", .function, none⟩] : List Move).foldl
      (fun g move => move.after g) (.empty "f")

/-- An instruction with something to do for all the passes: it writes what the function returns for
a sum of constants, and multiplies two readings of one register for nobody. -/
def wasteful : Definition where
  name := "i"
  role := .instruction
  behavior :=
    ([.add (.const (Constant.ofInt 1 (.uint 8))), .add (.builtInCall [⟨0⟩, ⟨0⟩] .add (.uint 8)),
      .add (.readReg "A" (.uint 8)), .add (.readReg "A" (.uint 8)),
      .add (.builtInCall [⟨2⟩, ⟨3⟩] .mul (.uint 8)), .add (.funcCall [⟨1⟩] "f" (.uint 8)),
      .add (.writeReg ⟨5⟩ none "B"), .add (.instrEnd [⟨6⟩]), .add (.start (some ⟨7⟩)),
      .setOwner ⟨"i", .instruction, none⟩] : List Move).foldl (fun g move => move.after g)
        (.empty "i")

/-- How the limit is taken off. -/
theorem unlimited_of_negative (definitions : List Definition) :
    Unlimited ⟨definitions, ["function-inliner:max-nodes=-1"]⟩ := ⟨_, -1, by cbv, by cbv, by decide⟩

/-- Both of them, and no limit on inlining. -/
def untidied : Context := ⟨[castByte, wasteful], ["function-inliner:max-nodes=-1"]⟩

/-- Of the six values of the instruction one constant is left. -/
theorem preOpt_settles_untidied :
    (∀ d ∈ untidied.definitions, d.behavior.Reachable ∧ d.behavior.Acyclic) ∧
    (untidied.definitions.map Definition.name).Nodup ∧
    (Verification.pass.run untidied).result = .ok .empty ∧ untidied.Unlimited ∧
    let o := usualRegistry.execute id ["pre-opt"] [] [] false untidied
    o.result = .ok () ∧ (∀ d ∈ o.state.definitions, d.behavior.NormalForm) ∧
    (usualRegistry.execute id ["pre-opt"] [] [] false o.state).state = o.state := by
  have hreachable : ∀ d ∈ untidied.definitions, d.behavior.Reachable := by
    simp only [untidied, List.forall_mem_cons]
    exact ⟨Graph.reachable_foldl "f" _, Graph.reachable_foldl "i" _, by simp⟩
  have hacyclic : ∀ d ∈ untidied.definitions, d.behavior.Acyclic := by
    simp only [untidied, List.forall_mem_cons]
    exact ⟨Graph.acyclic_of_creation (by cbv), Graph.acyclic_of_creation (by cbv), by simp⟩
  have hnames : (untidied.definitions.map Definition.name).Nodup := by decide
  have howners : ∀ d ∈ untidied.definitions, d.role = .function →
      d.behavior.owner.map Owner.role = some .function := by
    simp only [untidied, List.forall_mem_cons]
    exact ⟨fun _ => by cbv, fun hrole => absurd hrole (by decide), by simp⟩
  have hverified : (Verification.pass.run untidied).result = .ok .empty := by cbv
  have hok : (usualRegistry.execute id ["pre-opt"] [] [] false untidied).result = .ok () := by cbv
  obtain ⟨hnormal, -, hstays⟩ :=
    preOpt_settles standardRegistry_eq hreachable hacyclic hnames howners
    ⟨_, hverified, rfl⟩ (unlimited_of_negative _) false false hok
  exact ⟨fun d hd => ⟨hreachable d hd, hacyclic d hd⟩, hnames, hverified,
    unlimited_of_negative _, hok, hnormal, hstays⟩

/-- A function whose graph ends as an instruction does, and takes itself for that of one. -/
def misowned : Definition where
  name := "f"
  role := .function
  behavior :=
    ([.add (.instrEnd []), .add (.start (some ⟨0⟩)), .setOwner ⟨"f", .instruction, none⟩] :
      List Move).foldl (fun g move => move.after g) (.empty "f")

/-- An instruction that writes what it returns. -/
def resultless : Definition where
  name := "i"
  role := .instruction
  behavior :=
    ([.add (.funcCall [] "f" (.uint 8)), .add (.writeReg ⟨0⟩ none "B"), .add (.instrEnd [⟨1⟩]),
      .add (.start (some ⟨2⟩)), .setOwner ⟨"i", .instruction, none⟩] : List Move).foldl
      (fun g move => move.after g) (.empty "i")

/-- Nothing wrong is found with the two of them, and still there is nothing the call could be
replaced by. -/
def misled : Context := ⟨[misowned, resultless], ["function-inliner:max-nodes=-1"]⟩

/-- **A function that takes itself for an instruction is never inlined**, so a call of it is left.
-/
theorem preOpt_misowned :
    (∀ d ∈ misled.definitions, d.behavior.Reachable ∧ d.behavior.Acyclic) ∧
    (misled.definitions.map Definition.name).Nodup ∧
    (Verification.pass.run misled).result = .ok .empty ∧ misled.Unlimited ∧
    standardRegistry = .ok usualRegistry ∧
    let o := usualRegistry.execute id ["pre-opt"] [] [] false misled
    o.result = .ok () ∧ ∃ d ∈ o.state.definitions, ¬ d.behavior.NormalForm := by
  have hgraphs : ∀ d ∈ misled.definitions, d.behavior.Reachable ∧ d.behavior.Acyclic := by
    simp only [misled, List.forall_mem_cons]
    exact ⟨⟨Graph.reachable_foldl "f" _, Graph.acyclic_of_creation (by cbv)⟩,
      ⟨Graph.reachable_foldl "i" _, Graph.acyclic_of_creation (by cbv)⟩, by simp⟩
  have hleft : (usualRegistry.execute id ["pre-opt"] [] [] false misled).state.definitions.map
      (fun d => d.behavior.member? ⟨0⟩) = [some (.instrEnd []),
        some (.funcCall [] "f" (.uint 8))] := by
    cbv
  refine ⟨hgraphs, by decide, by cbv, unlimited_of_negative _, standardRegistry_eq, by cbv, ?_⟩
  obtain ⟨d, hd, hcall⟩ := List.mem_map.mp (hleft ▸ List.mem_cons_of_mem _ List.mem_cons_self)
  exact ⟨d, hd, fun hnormal => hnormal.callless hcall rfl⟩

end Context

end BehaviorGraph
