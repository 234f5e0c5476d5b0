/-
# Programs without casts and calls

Eliminating casts leaves no cast, and inlining without a limit leaves no call: **callees are
visited before their callers, so what is copied from a callee has no calls in it any more**.

That every call can be inlined follows from the verification.  What it needs of a callee is that it
is a function with as many parameters as there are arguments, has no side effects, returns once and
declares the parameters it refers to (`Definition.Callable`).  Both passes leave that as it is, and
bring in no calls and no references to parameters (`Definition.Inherits`).  So whatever was visited
before, the callee of a call can still be inlined (`Linked`).
-/
import BehaviorGraph.Proofs.ControlFlow
import BehaviorGraph.Proofs.NormalForms
import BehaviorGraph.Proofs.Programs
import BehaviorGraph.Proofs.Scheduling

namespace BehaviorGraph

/-! ## 1. What callers and callees can tell -/

/-- **A definition that can be inlined** at a call with so many arguments. -/
structure Definition.Callable (d : Definition) (arity : Nat) : Prop where
  role : d.role = .function
  arity : d.params.length = arity
  noEffects : d.behavior.membersOf (.family .sideEffect) = []
  returns : ∃ ret, d.behavior.membersOf (.exactly .ret) = [ret]
  declared : ∀ {id name type}, d.behavior.member? id = some (.param name type) →
    ∃ param, d.param? name = some param

/-- **`d` came out of `d₀` without new calls or new references to parameters**, its outlines the
same. -/
structure Definition.Inherits (d₀ d : Definition) : Prop where
  name : d.name = d₀.name
  role : d.role = d₀.role
  params : d.params = d₀.params
  framed : d₀.behavior.Framed d.behavior
  refers : ∀ {id name type}, d.behavior.member? id = some (.param name type) →
    d₀.behavior.member? id = some (.param name type)
  calls : ∀ {id args func type}, d.behavior.member? id = some (.funcCall args func type) →
    ∃ args₀, d₀.behavior.member? id = some (.funcCall args₀ func type) ∧ args₀.length = args.length

namespace Definition

variable {d d₀ : Definition} {arity : Nat} {g' : Graph} {old new : NodeId}

theorem Inherits.refl (d : Definition) : d.Inherits d :=
  ⟨rfl, rfl, rfl, .refl _, fun h => h, fun h => ⟨_, h, rfl⟩⟩

/-- A rewriting that brings in no call and no reference to a parameter. -/
theorem Inherits.rewrite (h : d₀.Inherits d) (hrewritten : d.behavior.Rewritten old new g')
    (hfresh : ∀ {id payload}, g'.member? id = some payload → d.behavior.member? id = none →
      payload.kind ≠ .funcCall ∧ payload.kind ≠ .param) :
    d₀.Inherits { d with behavior := g' } where
  name := h.name
  role := h.role
  params := h.params
  framed := h.framed.trans hrewritten.framed
  refers := by
    intro id name type hmember
    cases hbefore : d.behavior.member? id with
    | none => exact absurd rfl (hfresh hmember hbefore).2
    | some payload =>
      obtain rfl :=
        Payload.mapEdges_eq_param_iff.mp (hrewritten.member?_of_member hbefore hmember).symm
      exact h.refers hbefore
  calls := by
    intro id args func type hmember
    cases hbefore : d.behavior.member? id with
    | none => exact absurd rfl (hfresh hmember hbefore).1
    | some payload =>
      obtain ⟨args', rfl, rfl⟩ :=
        Payload.exists_of_mapEdges_eq_funcCall (hrewritten.member?_of_member hbefore hmember).symm
      obtain ⟨args₀, hcall, hlength⟩ := h.calls hbefore
      exact ⟨args₀, hcall, by rw [hlength, List.length_map]⟩

/-- What can be inlined can still be inlined. -/
theorem Inherits.callable (h : d₀.Inherits d) (hcallable : d₀.Callable arity) :
    d.Callable arity where
  role := h.role.trans hcallable.role
  arity := by rw [h.params, hcallable.arity]
  noEffects := by
    rw [h.framed.membersOf_eq fun kind hkind => ?_, hcallable.noEffects]
    revert hkind
    cases kind <;> decide
  returns := by
    rw [h.framed.membersOf_eq fun kind hkind => ?_]
    · exact hcallable.returns
    · rw [← of_decide_eq_true hkind]
      rfl
  declared hmember := by
    rw [param?, h.params]
    exact hcallable.declared (h.refers hmember)

/-- **A verified function that owns its behaviour can be inlined.** -/
theorem callable_of_verify {owner : Owner} (hverify : d.verify.errors = [])
    (hrole : d.role = .function)
    (howner : d.behavior.owner = some owner) (hfunction : owner.role = .function) :
    d.Callable d.params.length where
  role := hrole
  arity := rfl
  noEffects := by
    rw [verify, Diagnostics.errors_append] at hverify
    have hpure := (List.append_eq_nil_iff.mp hverify).2
    simp only [Diagnostics.ofErrors, hrole, if_true, List.append_eq_nil_iff] at hpure
    exact List.map_eq_nil_iff.mp hpure.1.1
  returns := by
    rw [verify, Diagnostics.errors_append, Graph.verify] at hverify
    simp only [Diagnostics.errors_append, List.append_eq_nil_iff] at hverify
    obtain ⟨ret, hends, hkind⟩ := Graph.ends_of_checkTerminal howner hverify.1.1.1.2
    rw [hfunction] at hkind
    refine ⟨ret, Graph.eq_of_mem_iff (Graph.pairwise_membersOf _ _) (List.pairwise_singleton _ _)
      fun id => ?_⟩
    rw [List.mem_singleton]
    constructor
    · intro hid
      obtain ⟨payload, hmember, hadmits⟩ := Graph.mem_membersOf_iff.mp hid
      have hend : id ∈ d.behavior.ends := by
        refine Graph.mem_membersOf_iff.mpr ⟨payload, hmember, ?_⟩
        rw [← of_decide_eq_true hadmits]
        rfl
      simpa [hends] using hend
    · rintro rfl
      obtain ⟨payload, hmember, -⟩ := Graph.mem_membersOf_iff.mp
        (show id ∈ d.behavior.ends by simp [hends])
      rw [Graph.kind?_of_member? hmember] at hkind
      exact Graph.mem_membersOf_iff.mpr ⟨payload, hmember,
        decide_eq_true (Option.some.inj hkind).symm⟩
  declared hmember := by
    obtain ⟨declared, hdeclared, -⟩ := param?_of_verify hverify hmember
    exact ⟨declared, hdeclared⟩

end Definition

namespace Inlining

variable {callee : Definition} {args ids : List NodeId}

/-- There is an argument for every parameter that is declared. -/
theorem exists_bindParams (h : ∀ id ∈ ids, ∀ {name type},
    callee.behavior.payload? id = some (.param name type) →
      ∃ arg, itemFor callee.params args name = some arg) :
    ∃ table, bindParams callee args ids = some table := by
  induction ids with
  | nil => exact ⟨_, rfl⟩
  | cons first rest ih =>
    obtain ⟨table, htable⟩ := ih fun id hid => h id (List.mem_cons_of_mem _ hid)
    by_cases hparam : ∃ name type, callee.behavior.payload? first = some (.param name type)
    · obtain ⟨name, type, hpayload⟩ := hparam
      obtain ⟨arg, harg⟩ := h first (by simp) hpayload
      exact ⟨table.insert first arg, by rw [bindParams_cons_param hpayload, harg, htable]; rfl⟩
    · rw [bindParams_cons_of_ne fun name type hpayload => hparam ⟨name, type, hpayload⟩]
      exact ⟨table, htable⟩

/-- **Without a limit everything that can be inlined is.** -/
theorem exists_verdict (h : callee.Callable args.length) :
    ∃ value table, verdict none callee args = some (value, table) := by
  obtain ⟨ret, hret⟩ := h.returns
  have hin : ret ∈ callee.behavior.membersOf (.exactly .ret) := by simp [hret]
  obtain ⟨payload, hmember, hadmits⟩ := Graph.mem_membersOf_iff.mp hin
  have hform : hasForm callee args = true := by simp [hasForm, h.role, h.arity, h.noEffects]
  obtain ⟨table, htable⟩ : ∃ table, bindParams callee args
      (callee.behavior.membersOf (.exactly .param)) = some table := by
    refine exists_bindParams fun id hid name type hpayload => ?_
    obtain ⟨found, hfound, -⟩ := Graph.mem_membersOf_iff.mp hid
    rw [Graph.payload?_of_member? hfound] at hpayload
    obtain ⟨param, hparam⟩ := h.declared (Option.some.inj hpayload ▸ hfound)
    rw [Definition.param?, List.find?_eq_bind_findIdx?_getElem?] at hparam
    obtain ⟨place, hplace, hget⟩ := Option.bind_eq_some_iff.mp hparam
    have hlt : place < args.length := h.arity ▸ (List.getElem?_eq_some_iff.mp hget).1
    exact ⟨args[place], by rw [itemFor, hplace, Option.bind_some, List.getElem?_eq_getElem hlt]⟩
  cases payload with
  | ret value =>
    refine ⟨value, table, ?_⟩
    simp [verdict, hform, exceeds, returned, Graph.single?, hret, Graph.payload?_of_member? hmember,
      htable]
  | _ => exact Bool.noConfusion hadmits

end Inlining

/-! ## 2. Calls that can be inlined -/

/-- **Every call finds another definition that can be inlined.** -/
def Linked (definitions : List Definition) : Prop :=
  ∀ place d, definitions[place]? = some d → ∀ id args func type,
    d.behavior.member? id = some (.funcCall args func type) →
      ∃ callee, ((definitions.eraseIdx place).find? fun other => decide (other.name = func))
        = some callee ∧
        callee.Callable args.length

section

variable {α β : Type} {R : α → β → Prop} {items : List α} {items' : List β}

/-- What corresponds still does where an element is left out of both lists. -/
theorem forall₂_eraseIdx (h : List.Forall₂ R items items') (place : Nat) :
    List.Forall₂ R (items.eraseIdx place) (items'.eraseIdx place) := by
  rw [List.eraseIdx_eq_take_drop_succ, List.eraseIdx_eq_take_drop_succ]
  exact List.rel_append (List.forall₂_take place h) (List.forall₂_drop (place + 1) h)

/-- What stands at a place of the second list corresponds to what stands there in the first. -/
theorem exists_getElem?_left (h : List.Forall₂ R items items') {place : Nat} {b : β}
    (hb : items'[place]? = some b) : ∃ a, items[place]? = some a ∧ R a b := by
  obtain ⟨hlength, hget⟩ := List.forall₂_iff_get.mp h
  obtain ⟨hlt', rfl⟩ := List.getElem?_eq_some_iff.mp hb
  have hlt : place < items.length := hlength ▸ hlt'
  exact ⟨items[place], List.getElem?_eq_getElem hlt, hget place hlt hlt'⟩

/-- What holds of everything that corresponds to something holds of the second list. -/
theorem forall_mem_right {P : β → Prop} (h : List.Forall₂ (fun _ : α => P) items items') :
    ∀ b ∈ items', P b := by
  induction h with
  | nil => simp
  | cons hfirst _ ih => exact List.forall_mem_cons.mpr ⟨hfirst, ih⟩

/-- What is found in one list corresponds to what is found in the other. -/
theorem exists_find? {p : α → Bool} {p' : β → Bool} (hp : ∀ {a b}, R a b → p' b = p a)
    (h : List.Forall₂ R items items') {a : α} (ha : items.find? p = some a) :
    ∃ b, items'.find? p' = some b ∧ R a b := by
  induction h with
  | nil => exact absurd ha (by simp)
  | @cons first first' rest rest' hfirst _ ih =>
    rw [List.find?_cons] at ha ⊢
    rw [hp hfirst]
    cases hfound : p first with
    | true =>
      rw [hfound] at ha
      obtain rfl := Option.some.inj ha
      exact ⟨first', rfl, hfirst⟩
    | false =>
      rw [hfound] at ha
      exact ih ha

end

variable {definitions definitions' : List Definition} {place : Nat} {d d₀ : Definition}

/-- Lists that agree in names name by name. -/
theorem map_name_eq (h : List.Forall₂ (fun d₀ d => d.name = d₀.name) definitions definitions') :
    definitions'.map Definition.name = definitions.map Definition.name := by
  induction h with
  | nil => rfl
  | cons hfirst _ ih => rw [List.map_cons, List.map_cons, ih, hfirst]

/-- Names are inherited. -/
theorem map_name_of_inherits (h : List.Forall₂ Definition.Inherits definitions definitions') :
    definitions'.map Definition.name = definitions.map Definition.name :=
  map_name_eq (h.imp fun _ _ hinherits => hinherits.name)

/-- The callee a call finds is the same, as far as a caller can tell. -/
theorem exists_callee (h : List.Forall₂ Definition.Inherits definitions definitions')
    {func : String} {callee : Definition}
    (hcallee : ((definitions.eraseIdx place).find? fun other => decide (other.name = func))
      = some callee) :
    ∃ callee', ((definitions'.eraseIdx place).find? fun other => decide (other.name = func))
      = some callee' ∧
      callee.Inherits callee' :=
  exists_find? (fun hinherits => by rw [hinherits.name]) (forall₂_eraseIdx h place) hcallee

/-- **What inherits is still linked.** -/
theorem Linked.inherit (h : Linked definitions)
    (hinherits : List.Forall₂ Definition.Inherits definitions definitions') :
      Linked definitions' := by
  intro place d hd id args func type hcall
  obtain ⟨d₀, hd₀, hsame₀⟩ := exists_getElem?_left hinherits hd
  obtain ⟨args₀, hcall₀, hargs⟩ := hsame₀.calls hcall
  obtain ⟨callee, hcallee, hcallable⟩ := h place d₀ hd₀ id _ _ _ hcall₀
  obtain ⟨callee', hcallee', hsame⟩ := exists_callee hinherits hcallee
  exact ⟨callee', hcallee', hsame.callable (hargs ▸ hcallable)⟩

/-- **A verified program is linked**, if every function knows that it is one. -/
theorem Context.Verified.linked {context : Context} (h : context.Verified)
    (howners : ∀ d ∈ context.definitions, d.role = .function →
      d.behavior.owner.map Owner.role = some .function) : Linked context.definitions := by
  intro place d hd id args func type hcall
  obtain ⟨callee, hcallee, hrole, hlength, -⟩ := Verification.of_checkCall
    (Verification.errors_of_checkCalls (h.calls hd) hcall)
  have hin : callee ∈ context.definitions :=
    List.mem_of_mem_eraseIdx (List.mem_of_find?_eq_some hcallee)
  obtain ⟨other, hother⟩ := List.mem_iff_getElem?.mp hin
  obtain ⟨owner, howner, hfunction⟩ := Option.map_eq_some_iff.mp (howners callee hin hrole)
  exact ⟨callee, hcallee, hlength ▸
    Definition.callable_of_verify (h.definitions hother) hrole howner hfunction⟩

/-! ## 3. Casts -/

namespace Graph.Elimination

variable {g g' : Graph} {cast value new id : NodeId} {source type : ValueType} {payload : Payload}

/-- What comes in for a cast is an operation or a constant. -/
theorem kind_fresh (he : g.Elimination cast value source type new g') (h : g.Kept)
    (hcast : g.member? cast = some (.typeCast value type)) (hmember : g'.member? id = some payload)
    (hnone : g.member? id = none) : payload.kind ≠ .funcCall ∧ payload.kind ≠ .param := by
  obtain ⟨-, -, rfl | hconst⟩ := he.fresh hmember hnone
  · cases he.rendered with
    | same =>
      obtain ⟨found, hfound⟩ := h.member?_of_mem_inputEdges hcast (Payload.value_mem_inputEdges rfl)
      exact absurd (hnone.symm.trans hfound) (by simp)
    | toBool _ _ hnew _ | narrow _ _ hnew =>
      obtain rfl := Option.some.inj (hmember.symm.trans hnew)
      simp [Payload.kind]
    | widen _ _ hnew =>
      obtain rfl := Option.some.inj (hmember.symm.trans hnew)
      cases source.isSigned <;> simp [Payload.kind]
  · rw [hconst]
    simp

end Graph.Elimination

/-- **A definition without casts**, its records in order. -/
structure Definition.Castless (d : Definition) : Prop where
  kept : d.behavior.Kept
  ranked : ∃ rank, d.behavior.Ranked rank
  casts : d.behavior.Without .typeCast

namespace CastElimination

/-- The casts that are left are those to be visited, and nothing else changed for callers and
callees. -/
structure Pending (d₀ d : Definition) (rest : List NodeId) : Prop where
  inherits : d₀.Inherits d
  kept : d.behavior.Kept
  ranked : ∃ rank, d.behavior.Ranked rank
  casts : d.behavior.Among .typeCast rest

/-- By induction on the members that are visited: a cast is eliminated, which brings in none, and
anything else is no cast. -/
theorem visitNodes_pending {v : VisitState Unit} {ids : List NodeId} (others : List Definition)
    (h : Pending d₀ v.definition ids) :
    (pass.visitor.visitNodes others ids).Ends v fun _ v' => Pending d₀ v'.definition [] := by
  induction ids generalizing v with
  | nil => exact h
  | cons id rest ih =>
    have hpass : (∀ {payload}, v.definition.behavior.member? id = some payload →
        payload.kind ≠ .typeCast) → Pending d₀ v.definition rest :=
      fun hne => ⟨h.inherits, h.kept, h.ranked, h.casts.pass hne⟩
    cases hmember : v.definition.behavior.member? id with
    | none =>
      rw [ends_visitNodes_skip (by rw [Graph.isActive_eq_isSome_member?, hmember]; rfl)]
      exact ih (hpass fun hsome => absurd (hmember.symm.trans hsome) (by simp))
    | some payload =>
      by_cases hkind : payload.kind = .typeCast
      · obtain ⟨rank, hranked⟩ := h.ranked
        cases payload with
        | typeCast operand target =>
          obtain ⟨found, hfound, hvalue⟩ := h.kept.value_of_mem_inputEdges hmember rfl
            (Payload.value_mem_inputEdges rfl : operand ∈ _)
          obtain ⟨source, hsource, -⟩ := Graph.exists_typeOf h.kept hranked hfound hvalue
          refine visitNodes_cons_cast h.kept hranked hmember hsource fun new g' he => ih ?_
          have hrewritten := he.rewritten hmember
          exact ⟨h.inherits.rewrite hrewritten fun hnew hnone =>
            he.kind_fresh h.kept hmember hnew hnone,
            he.kept, he.ranked, hrewritten.among (fun hnew hnone => (he.fresh hnew hnone).2.1)
              h.casts⟩
        | _ => exact Kind.noConfusion hkind
      · refine visitNodes_cons_of_ne hmember hkind (ih (hpass fun hsome => ?_))
        rwa [← Option.some.inj (hmember.symm.trans hsome)]

/-- **Eliminating casts leaves no cast.** -/
theorem visitDefinition_castless {rank : NodeId → Nat} (h : d.behavior.Kept)
    (hranked : d.behavior.Ranked rank) (others : List Definition) (memory : Unit) :
    (pass.visitor.visitDefinition others).Ends ⟨memory, d⟩ fun _ v =>
      d.Inherits v.definition ∧ v.definition.Castless := by
  have hstart : Pending d d d.behavior.members :=
    ⟨.refl d, h, ⟨rank, hranked⟩, d.behavior.among_members .typeCast⟩
  refine visitDefinition_of_nodes (Q := fun _ d' => d.Inherits d' ∧ d'.Castless) rfl rfl
    (fun v => ⟨⟨_, rfl⟩, rfl⟩) ((visitNodes_pending others hstart).imp fun r v hend => ?_)
  exact ⟨hend.inherits, hend.kept, hend.ranked, hend.casts.without⟩

end CastElimination

/-! ## 4. Calls -/

/-- **A definition without casts and without calls.** -/
structure Definition.Expanded (d : Definition) : Prop extends d.Castless where
  calls : d.behavior.Without .funcCall

namespace Inlining

/-- The calls that are left are those to be visited. -/
structure Pending (d₀ : Definition) (rest : List NodeId) (v : VisitState Memory) : Prop where
  unlimited : v.memory.limit = none
  inherits : d₀.Inherits v.definition
  castless : v.definition.Castless
  calls : v.definition.behavior.Among .funcCall rest

variable {others : List Definition} {id : NodeId} {rest : List NodeId} {v v' : VisitState Memory}

/-- A member that is no call need not be visited. -/
theorem Pending.pass (h : Pending d₀ (id :: rest) v)
    (hne : ∀ {payload}, v.definition.behavior.member? id = some payload →
      payload.kind ≠ .funcCall) :
    Pending d₀ rest v := ⟨h.unlimited, h.inherits, h.castless, h.calls.pass hne⟩

/-- A call is inlined, and no other comes in. -/
theorem Pending.inline {callee : Definition} {args : List NodeId} {func : String} {type : ValueType}
    {value new : NodeId} {table : Table NodeId NodeId} {between g' : Graph}
    {moved : NodeId → NodeId}
    {copied : NodeId → Prop} {rank : NodeId → Nat} (h : Pending d₀ (id :: rest) v)
    (hcall : v.definition.behavior.member? id = some (.funcCall args func type))
    (hcallee : callee.Expanded) (hreturns : Returns callee args value table)
    (hinlined : callee.behavior.Inlined v.definition.behavior table value id new between
      moved copied rank g') :
    Pending d₀ rest { v.withGraph g' with memory := v.memory.next } := by
  have hrewritten := hinlined.rewritten ⟨_, hcall, rfl⟩
  have hfresh : ∀ {other payload}, g'.member? other = some payload →
      v.definition.behavior.member? other = none →
        payload.kind ≠ .typeCast ∧ payload.kind ≠ .funcCall ∧ payload.kind ≠ .param := by
    intro other payload hmember hnone
    -- What is new is a copy of a node of the callee, which has neither casts nor calls; and
    -- parameters are not copied.
    rcases hinlined.old_or_copy hmember with
      ⟨found, -, hfound, -⟩ | ⟨origin, found, -, hentry, hfound, -, rfl, -⟩
    · exact absurd (hnone.symm.trans hfound) (by simp)
    · rw [Payload.kind_mapEdges]
      refine ⟨hcallee.casts hfound, hcallee.calls hfound, fun hparam => ?_⟩
      cases found with
      | param name type => exact hreturns.ne_param hfound hentry rfl
      | _ => exact Kind.noConfusion hparam
  refine ⟨h.unlimited, h.inherits.rewrite hrewritten fun hmember hnone => (hfresh hmember hnone).2,
    ⟨hinlined.exchanged.kept, ⟨rank, hinlined.stillRanked⟩, ?_⟩, ?_⟩
  · exact hrewritten.without (fun hmember hnone => (hfresh hmember hnone).1) h.castless.casts
  · exact hrewritten.among (fun hmember hnone => (hfresh hmember hnone).2.1) h.calls

/-- **Inlining without a limit leaves no call**, if every callee can be inlined and has no calls
itself. -/
theorem visitDefinition_expanded (h : d.Castless)
    (hcallees : ∀ {id args func type}, d.behavior.member? id = some (.funcCall args func type) →
      ∃ callee, (others.find? fun other => decide (other.name = func)) = some callee ∧
        callee.Callable args.length ∧ callee.Expanded)
    {memory : Memory} (hunlimited : memory.limit = none) :
    (pass.visitor.visitDefinition others).Ends ⟨memory, d⟩ fun r v => r = .ok () →
      v.memory.limit = none ∧ d.Inherits v.definition ∧ v.definition.Expanded := by
  refine (visitDefinition_hands_on (P := Pending d) Pending.pass ?_ ?_
    ⟨hunlimited, .refl d, h, d.behavior.among_members .funcCall⟩).imp fun r v hend hok => ?_
  · intro v id rest args func type hpending hmember
    obtain ⟨args₀, hcall₀, hlength⟩ := hpending.inherits.calls hmember
    obtain ⟨callee, hcallee, hcallable, hexpanded⟩ := hcallees hcall₀
    rw [hlength] at hcallable
    obtain ⟨value, table, hverdict⟩ := exists_verdict hcallable
    obtain ⟨rank, hranked⟩ := hpending.castless.ranked
    obtain ⟨sourceRank, hsourceRanked⟩ := hexpanded.ranked
    refine (visitStep_inlines hpending.castless.kept hranked hmember hcallee hexpanded.kept
      hsourceRanked (by rw [hpending.unlimited]; exact hverdict)).imp fun r v' hend => ?_
    rintro goOn rfl
    obtain ⟨hgoOn, new, between, moved, copied, rank, g', hinlined, rfl⟩ := hend
    exact ⟨Except.ok.inj hgoOn, hpending.inline hmember hexpanded
      (returns_of_verdict hverdict) hinlined⟩
  · intro v hpending
    exact ⟨hpending.unlimited, hpending.inherits, hpending.castless, hpending.calls⟩
  · have hdone := hend hok
    exact ⟨hdone.unlimited, hdone.inherits, hdone.castless, hdone.calls.without⟩

end Inlining

/-! ## 5. Whole programs -/

variable {context : Context}

/-- **After the elimination of casts no definition has a cast.** -/
theorem CastElimination.run_castless
    (h : ∀ d ∈ context.definitions, d.behavior.Kept ∧ ∃ rank, d.behavior.Ranked rank) :
    pass.run.Ends context fun r context' => ∀ memory, r = .ok memory →
      List.Forall₂ (fun d₀ d => d₀.Inherits d ∧ d.Castless) context.definitions
        context'.definitions ∧
      context'.options = context.options := by
  refine Pass.run_changes_each rfl (fun _ => rfl) fun d hd others memory => ?_
  obtain ⟨hkept, rank, hranked⟩ := h d hd
  exact (visitDefinition_castless hkept hranked others memory).imp fun r v hend _ => hend

/-- Who is called by the definition whose turn it is has had its turn. -/
theorem mem_done_of_callsAt {done rest : List Nat} {callee : Nat}
    (hnames : (definitions.map Definition.name).Nodup)
    (hschedule : schedule definitions .calleesFirst = .ok (done ++ place :: rest))
    (hcalls : CallsAt definitions place callee) : callee ∈ done := by
  have hscheduling := schedule_calleesFirst hnames
  rw [hschedule] at hscheduling
  cases hscheduling with
  | ordered hperm hbefore _ =>
    exact mem_front_of_idxOf_lt (hperm.nodup_iff.mpr List.nodup_range) rfl (hbefore hcalls)

/-- Whoever goes by the name that the definition whose turn it is calls has had its turn. -/
theorem mem_done_of_name {now : List Definition} {done rest : List Nat} {other : Nat}
    {callee : Definition} {id : NodeId} {args : List NodeId} {func : String} {type : ValueType}
    (hnames : (definitions.map Definition.name).Nodup)
    (hschedule : schedule definitions .calleesFirst = .ok (done ++ place :: rest))
    (hsame : List.Forall₂ (fun d₀ d => d.name = d₀.name) definitions now)
    (hd : definitions[place]? = some d)
    (hcall : d.behavior.member? id = some (.funcCall args func type))
    (hother : now[other]? = some callee) (hname : callee.name = func) : other ∈ done := by
  obtain ⟨callee₀, hother₀, hname₀⟩ := exists_getElem?_left hsame hother
  exact mem_done_of_callsAt hnames hschedule
    ⟨d, callee₀, id, args, type, hd, hother₀, by rw [← hname₀, hname]; exact hcall⟩

/-- **After inlining without a limit no definition has a call**, in a program whose calls can be
inlined. -/
theorem Inlining.run_expanded (hnames : (context.definitions.map Definition.name).Nodup)
    (hlinked : Linked context.definitions) (hcastless : ∀ d ∈ context.definitions, d.Castless)
    (hinit : init.Ends context fun r context' =>
      context' = context ∧ ∀ memory, r = .ok memory → memory.limit = none) :
    pass.run.Ends context fun r context' => ∀ memory, r = .ok memory →
      List.Forall₂ (fun d₀ d => d₀.Inherits d ∧ d.Expanded) context.definitions
        context'.definitions ∧
      context'.options = context.options := by
  refine Pass.run_changes (M := fun memory : Memory => memory.limit = none) hinit (fun _ => rfl) ?_
  intro done place rest now memory d hschedule hhalfway hd hunlimited
  have hinherits : List.Forall₂ Definition.Inherits context.definitions now :=
    hhalfway.related (fun h => h.1) fun _ _ => .refl _
  refine visitDefinition_expanded (hcastless d (List.mem_of_getElem? hd)) ?_ hunlimited
  intro id args func type hcall
  obtain ⟨callee₀, hcallee₀, hcallable⟩ := hlinked place d hd id _ _ _ hcall
  obtain ⟨callee, hcallee, hsame⟩ := exists_callee hinherits hcallee₀
  refine ⟨callee, hcallee, hsame.callable hcallable, ?_⟩
  -- The callee was visited before, so it has no calls left.
  obtain ⟨other, hother⟩ := List.mem_iff_getElem?.mp
    (List.mem_of_mem_eraseIdx (List.mem_of_find?_eq_some hcallee))
  obtain ⟨other₀, hother₀, -⟩ := exists_getElem?_left hinherits hother
  have hdone : other ∈ done :=
    mem_done_of_name hnames hschedule (hinherits.imp fun _ _ h => h.name) hd
    hcall hother (by simpa using List.find?_some hcallee)
  exact (hhalfway.changed hdone hother₀ hother).2

end BehaviorGraph
